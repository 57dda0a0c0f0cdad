import Mathlib.Data.List.Forall2
import ManageOurHome.Csp.Report

/-! @src apps/api/src/csp_report.rs | layer:proof | family:reports

    What is logged of two reports that differ in their secrets alone. Of a URL nothing of them is left. Of a path the
    segments that look like a token are left where they stand before a "://", or right after the first: two reports that
    differ there, in what is kept of the field, leave two lines.

        /a/<token>/b            :redacted       the same line
        /a/<token>/b://h/c      as it is        two lines -/

namespace Home.CspReport

open HttpGuard

/-! ### The grammar -/

def unreserved (c : Char) : Bool := isAsciiAlphanumeric c || c ∈ ['-', '.', '_', '~']

def subDelim (c : Char) : Bool := c ∈ ['!', '$', '&', '\'', '(', ')', '*', '+', ',', ';', '=']

def pchar (c : Char) : Bool := unreserved c || subDelim c || c = ':' || c = '@'

def isHexdig (c : Char) : Bool := isAsciiDigit c || (65 ≤ c.toNat ∧ c.toNat ≤ 70) || (97 ≤ c.toNat ∧ c.toNat ≤ 102)

/-- Characters of a kind, and others percent-encoded. -/
def encoded (allowed : Char → Bool) : Text → Bool
  | [] => true
  | [c] => allowed c
  | [c, d] => allowed c && allowed d
  | c :: a :: b :: s =>
    if c = '%' then isHexdig a && isHexdig b && encoded allowed s else allowed c && encoded allowed (a :: b :: s)

/-- The characters of a query or a fragment. -/
def queryChar (c : Char) : Bool := pchar c || c = '/' || c = '?'

/-- Those of the userinfo. -/
def userChar (c : Char) : Bool := unreserved c || subDelim c || c = ':'

/-- Those of a registered name. -/
def nameChar (c : Char) : Bool := unreserved c || subDelim c

def tailText (query fragment : Option Text) : Text := query.elim [] ('?' :: ·) ++ fragment.elim [] ('#' :: ·)

/-- A query and a fragment, or none of them. -/
def Tail (tail : Text) : Prop := ∃ query fragment, tail = tailText query fragment ∧
  (∀ q ∈ query, encoded queryChar q = true) ∧ ∀ f ∈ fragment, encoded queryChar f = true

def Userinfo (user : Text) : Prop := user = [] ∨ ∃ u, user = u ++ ['@'] ∧ encoded userChar u = true

/-- A name or an address between brackets, and a port. -/
def Host (host : Text) : Prop := ∃ name port, host = name ++ port ∧
  (encoded nameChar name = true ∨ ∃ ip : Text, name = '[' :: ip ++ [']'] ∧ ∀ c ∈ ip, userChar c = true) ∧
  (port = [] ∨ ∃ digits : Text, port = ':' :: digits ∧ ∀ c ∈ digits, isAsciiDigit c = true)

def Segment (segment : Text) : Prop := encoded pchar segment = true

def joined (segments : List Text) : Text := ['/'].intercalate segments

/-- The segments of a path, which does not begin with "//". -/
structure Path (segments : List Text) : Prop where
  ne_nil : segments ≠ []
  segment : ∀ s ∈ segments, Segment s
  single : ∀ x rest, segments ≠ [] :: [] :: x :: rest

/-! ### Two URLs that differ in their secrets alone -/

def SameSegment (s s' : Text) : Prop := s = s' ∨ (opaqueSegment s = true ∧ opaqueSegment s' = true)

/-- They differ in their queries, fragments, userinfos, and in segments that look like a token in both. -/
inductive SameUrl : Text → Text → Prop where
  | hierarchical {scheme user user' host tail tail' : Text} {segments segments' : List Text}
      (hscheme : isScheme scheme = true) (huser : Userinfo user) (huser' : Userinfo user') (hhost : Host host)
      (hpath : ∀ s ∈ segments, Segment s) (hsame : List.Forall₂ SameSegment segments segments')
      (htail : Tail tail) (htail' : Tail tail') :
      SameUrl (scheme ++ [':', '/', '/'] ++ (user ++ host ++ segments.flatMap ('/' :: ·) ++ tail))
        (scheme ++ [':', '/', '/'] ++ (user' ++ host ++ segments'.flatMap ('/' :: ·) ++ tail'))
  | rootless {scheme tail tail' : Text} {segments segments' : List Text}
      (hscheme : isScheme scheme = true) (hpath : Path segments) (hsame : List.Forall₂ SameSegment segments segments')
      (htail : Tail tail) (htail' : Tail tail') :
      SameUrl (scheme ++ ':' :: (joined segments ++ tail)) (scheme ++ ':' :: (joined segments' ++ tail'))
  | path {tail tail' : Text} {segments segments' : List Text}
      (hpath : Path segments) (hfirst : ':' ∉ segments.headD []) (hsame : List.Forall₂ SameSegment segments segments')
      (htail : Tail tail) (htail' : Tail tail') : SameUrl (joined segments ++ tail) (joined segments' ++ tail')

/-- The segment after a "://" that begins in `s`. -/
def cutAfter (s : Text) : List Text → Option Text
  | [] :: t :: _ => if s.getLast? = some ':' then some t else none
  | _ => none

/-- The segments of a path that are written as they are, each where it starts: those before a "://" and the one after
    the first. -/
def kept (pos : ℕ) : List Text → Option (List (ℕ × Text))
  | [] => none
  | s :: rest =>
    match cutAfter s rest with
    | some t => some [(pos + s.length + 2, t)]
    | none => (kept (pos + s.length + 1) rest).map ((pos, s) :: ·)

/-- A path with one that looks like a token among those, which starts in what is logged of the field. -/
def Exposed (url : Text) : Prop := ∃ segments tail, url = joined segments ++ tail ∧ Path segments ∧
  ':' ∉ segments.headD [] ∧ Tail tail ∧
  ∃ written, kept 0 segments = some written ∧ ∃ k ∈ written, opaqueSegment k.2 = true ∧ k.1 < MAX_FIELD_CHARS

/-! ### Characters -/

section Characters

variable {c : Char} {s s' : Text} {allowed : Char → Bool}

/-- A character of a URL, which cuts none of its segments. -/
def Plain (c : Char) : Prop := 33 ≤ c.toNat ∧ c.toNat ≤ 126 ∧ c ≠ '/' ∧ c ≠ '?' ∧ c ≠ '#'

theorem plain_of_alphanumeric (h : isAsciiAlphanumeric c = true) : Plain c ∧ c ≠ '@' ∧ c ≠ ':' ∧ c ≠ '%' := by
  have hrange : (65 ≤ c.toNat ∧ c.toNat ≤ 90) ∨ (97 ≤ c.toNat ∧ c.toNat ≤ 122) ∨ (48 ≤ c.toNat ∧ c.toNat ≤ 57) := by
    simpa [isAsciiAlphanumeric, isAsciiAlphabetic, isAsciiDigit, or_assoc] using h
  have hne : ∀ d : Char, d.toNat < 48 ∨ (57 < d.toNat ∧ d.toNat < 65) → c ≠ d := by
    rintro d hd rfl
    omega
  exact ⟨⟨by omega, by omega, hne '/' (by decide), hne '?' (by decide), hne '#' (by decide)⟩, hne '@' (by decide),
    hne ':' (by decide), hne '%' (by decide)⟩

theorem plain_of_nameChar (h : nameChar c = true) : Plain c ∧ c ≠ '@' := by
  rw [nameChar, Bool.or_eq_true, unreserved, Bool.or_eq_true, decide_eq_true_iff, subDelim, decide_eq_true_iff] at h
  rcases h with (h | h) | h
  · exact ⟨(plain_of_alphanumeric h).1, (plain_of_alphanumeric h).2.1⟩
  · have hall : ∀ d ∈ ['-', '.', '_', '~'], (33 ≤ d.toNat ∧ d.toNat ≤ 126 ∧ d ≠ '/' ∧ d ≠ '?' ∧ d ≠ '#') ∧ d ≠ '@' := by
      decide
    exact hall c h
  · have hall : ∀ d ∈ ['!', '$', '&', '\'', '(', ')', '*', '+', ',', ';', '='],
        (33 ≤ d.toNat ∧ d.toNat ≤ 126 ∧ d ≠ '/' ∧ d ≠ '?' ∧ d ≠ '#') ∧ d ≠ '@' := by
      decide
    exact hall c h

theorem plain_of_userChar (h : userChar c = true) : Plain c ∧ c ≠ '@' := by
  rw [userChar, Bool.or_eq_true, decide_eq_true_iff] at h
  rcases h with h | rfl
  · exact plain_of_nameChar h
  · exact ⟨⟨by decide, by decide, by decide, by decide, by decide⟩, by decide⟩

theorem plain_of_pchar (h : pchar c = true) : Plain c := by
  rw [pchar, Bool.or_eq_true, Bool.or_eq_true, decide_eq_true_iff, decide_eq_true_iff] at h
  rcases h with (h | rfl) | rfl
  · exact (plain_of_nameChar h).1
  · exact ⟨by decide, by decide, by decide, by decide, by decide⟩
  · exact ⟨by decide, by decide, by decide, by decide, by decide⟩

theorem alphanumeric_of_hexdig (h : isHexdig c = true) : isAsciiAlphanumeric c = true := by
  simp only [isHexdig, isAsciiDigit, Bool.or_eq_true, decide_eq_true_iff] at h
  simp only [isAsciiAlphanumeric, isAsciiAlphabetic, isAsciiDigit, Bool.or_eq_true, decide_eq_true_iff]
  omega

/-- What an encoded text holds. -/
theorem of_mem_encoded (h : encoded allowed s = true) :
    ∀ c ∈ s, allowed c = true ∨ c = '%' ∨ isAsciiAlphanumeric c = true := by
  induction s using encoded.induct with
  | case1 => exact fun c hc => absurd hc List.not_mem_nil
  | case2 c =>
    intro d hd
    rw [List.mem_singleton.mp hd]
    exact .inl h
  | case3 c d =>
    rw [encoded, Bool.and_eq_true] at h
    intro e he
    rcases List.mem_cons.mp he with rfl | he
    · exact .inl h.1
    · rw [List.mem_singleton.mp he]
      exact .inl h.2
  | case4 a b s ih =>
    rw [encoded, if_pos rfl, Bool.and_eq_true, Bool.and_eq_true] at h
    intro e he
    rcases List.mem_cons.mp he with rfl | he
    · exact .inr (.inl rfl)
    rcases List.mem_cons.mp he with rfl | he
    · exact .inr (.inr (alphanumeric_of_hexdig h.1.1))
    rcases List.mem_cons.mp he with rfl | he
    · exact .inr (.inr (alphanumeric_of_hexdig h.1.2))
    · exact ih h.2 e he
  | case5 c a b s hc ih =>
    rw [encoded, if_neg hc, Bool.and_eq_true] at h
    intro e he
    rcases List.mem_cons.mp he with rfl | he
    · exact .inl h.1
    · exact ih h.2 e he

theorem encoded_of_all (h : ∀ c ∈ s, allowed c = true ∧ c ≠ '%') : encoded allowed s = true := by
  induction s using encoded.induct with
  | case1 => rfl
  | case2 c => exact (h c List.mem_cons_self).1
  | case3 c d =>
    rw [encoded, (h c List.mem_cons_self).1, (h d (List.mem_cons_of_mem _ List.mem_cons_self)).1]
    rfl
  | case4 a b s ih => exact absurd rfl (h '%' List.mem_cons_self).2
  | case5 c a b s hc ih =>
    rw [encoded, if_neg hc, (h c List.mem_cons_self).1, ih fun d hd => h d (List.mem_cons_of_mem _ hd)]
    rfl

theorem plain_percent : Plain '%' := ⟨by decide, by decide, by decide, by decide, by decide⟩

theorem Segment.plain (h : Segment s) (hc : c ∈ s) : Plain c := by
  rcases of_mem_encoded h c hc with hc | rfl | hc
  · exact plain_of_pchar hc
  · exact plain_percent
  · exact (plain_of_alphanumeric hc).1

theorem Segment.no_slash (h : Segment s) : '/' ∉ s := fun hc => (h.plain hc).2.2.1 rfl

theorem isWhitespace_of_range (h : 33 ≤ c.toNat ∧ c.toNat ≤ 126) : isWhitespace c = false := by
  rw [isWhitespace]
  simp only [decide_eq_false_iff_not]
  omega

theorem clean_of_plain (h : Plain c) : clean c = c := by
  have hbreaks : breaksLine c = false := by
    have hcontrol : isControl c = false := by
      rw [isControl]
      simp only [decide_eq_false_iff_not]
      have := h.1
      have := h.2.1
      omega
    have hne : ∀ d : Char, 126 < d.toNat → c ≠ d := by
      rintro d hd rfl
      have := h.2.1
      omega
    rw [breaksLine, hcontrol, decide_eq_false (hne _ (by decide)), decide_eq_false (hne _ (by decide))]
    rfl
  rw [clean, if_neg (by rw [hbreaks]; exact Bool.false_ne_true)]

/-- What looks like a token is made of token characters, more than one. -/
theorem opaque_spec (h : opaqueSegment s = true) : s ≠ [] ∧ ∀ c ∈ s, tokenChar c = true := by
  rw [opaqueSegment, Bool.and_eq_true, Bool.and_eq_true, List.all_eq_true, decide_eq_true_iff] at h
  refine ⟨fun hnil => ?_, h.2⟩
  rw [hnil] at h
  exact absurd h.1.1 (by decide)

theorem pchar_of_tokenChar (h : tokenChar c = true) : pchar c = true ∧ c ≠ '%' ∧ c ≠ ':' ∧ c ≠ '@' := by
  rw [tokenChar, Bool.or_eq_true, Bool.or_eq_true, decide_eq_true_iff, decide_eq_true_iff] at h
  rcases h with (h | rfl) | rfl
  · obtain ⟨-, hat, hcolon, hpercent⟩ := plain_of_alphanumeric h
    exact ⟨by simp [pchar, unreserved, h], hpercent, hcolon, hat⟩
  · decide
  · decide

theorem segment_opaque_spec (h : opaqueSegment s = true) : Segment s := encoded_of_all fun c hc =>
  ⟨(pchar_of_tokenChar ((opaque_spec h).2 c hc)).1, (pchar_of_tokenChar ((opaque_spec h).2 c hc)).2.1⟩

theorem notMem_opaque_spec (h : opaqueSegment s = true) : ':' ∉ s ∧ '@' ∉ s :=
  ⟨fun hc => (pchar_of_tokenChar ((opaque_spec h).2 _ hc)).2.2.1 rfl,
    fun hc => (pchar_of_tokenChar ((opaque_spec h).2 _ hc)).2.2.2 rfl⟩

end Characters

/-! ### Paths -/

section Paths

variable {s s' t q : Text} {segments segments' rest : List Text} {pos n : ℕ} {k : ℕ × Text} {written : List (ℕ × Text)}

theorem joined_cons (s : Text) (rest : List Text) : joined (s :: rest) = s ++ rest.flatMap ('/' :: ·) := by
  induction rest generalizing s with
  | nil => rw [joined, List.intercalate_singleton, List.flatMap_nil, List.append_nil]
  | cons t rest ih =>
    have hcons : joined (s :: t :: rest) = s ++ ['/'] ++ joined (t :: rest) := List.intercalate_cons_cons
    rw [hcons, ih, List.flatMap_cons, List.append_assoc]
    rfl

theorem redactPath_joined (hne : segments ≠ []) (hslash : ∀ s ∈ segments, '/' ∉ s) :
    redactPath (joined segments) = joined (segments.map redactSegment) := by
  rw [redactPath, joined, List.splitOn_intercalate '/' hslash hne]
  rfl

theorem map_redactSegment (h : List.Forall₂ SameSegment segments segments') :
    segments.map redactSegment = segments'.map redactSegment := by
  induction h with
  | nil => rfl
  | cons hs _ ih =>
    rw [List.map_cons, List.map_cons, ih]
    rcases hs with rfl | ⟨hs, hs'⟩
    · rfl
    · rw [redactSegment, redactSegment, if_pos hs, if_pos hs']

theorem forall_of_same {P : Text → Prop} (hsecret : ∀ s, opaqueSegment s = true → P s)
    (hsame : List.Forall₂ SameSegment segments segments') (h : ∀ s ∈ segments, P s) : ∀ s ∈ segments', P s := by
  induction hsame with
  | nil => exact fun _ hs => absurd hs List.not_mem_nil
  | cons hs _ ih =>
    rw [List.forall_mem_cons] at h ⊢
    refine ⟨?_, ih h.2⟩
    rcases hs with rfl | ⟨-, hs'⟩
    · exact h.1
    · exact hsecret _ hs'

/-- A path is redacted the same. -/
theorem redactPath_same (hsame : List.Forall₂ SameSegment segments segments') (hpath : ∀ s ∈ segments, Segment s) :
    redactPath (segments.flatMap ('/' :: ·)) = redactPath (segments'.flatMap ('/' :: ·)) := by
  have hpath' : ∀ s ∈ segments', Segment s := forall_of_same (fun _ => segment_opaque_spec) hsame hpath
  have hslash : ∀ l : List Text, (∀ s ∈ l, Segment s) → ∀ s ∈ ([] : Text) :: l, '/' ∉ s := by
    intro l hl s hs
    rcases List.mem_cons.mp hs with rfl | hs
    · exact List.not_mem_nil
    · exact (hl s hs).no_slash
  have hjoined : ∀ l : List Text, l.flatMap ('/' :: ·) = joined ([] :: l) := fun l => (joined_cons [] l).symm
  rw [hjoined, hjoined, redactPath_joined (List.cons_ne_nil _ _) (hslash _ hpath),
    redactPath_joined (List.cons_ne_nil _ _) (hslash _ hpath'), List.map_cons, List.map_cons, map_redactSegment hsame]

/-- Where a text is first cut at a "://": at its first "/", or after it. -/
theorem splitOnce_segment (h : '/' ∉ s) (q : Text) : splitOnce [':', '/', '/'] (s ++ '/' :: q) =
    if s.getLast? = some ':' ∧ q.head? = some '/' then some (s.dropLast, q.tail)
    else (splitOnce [':', '/', '/'] q).map fun (before, after) => (s ++ '/' :: before, after) := by
  induction s with
  | nil =>
    rw [List.nil_append, splitOnce, if_neg (by simp), if_neg (by simp)]
    rfl
  | cons c s ih =>
    have hc : c ≠ '/' := fun heq => h (heq ▸ List.mem_cons_self)
    have hs : '/' ∉ s := fun hmem => h (List.mem_cons_of_mem _ hmem)
    cases s with
    | nil =>
      rw [List.cons_append, List.nil_append, splitOnce]
      by_cases hcut : c = ':' ∧ q.head? = some '/'
      · obtain ⟨rfl, hq⟩ := hcut
        obtain ⟨q, rfl⟩ := List.head?_eq_some_iff.mp hq
        rfl
      · have hnot : ¬ ([':', '/', '/'] : Text).isPrefixOf (c :: '/' :: q) = true := by
          cases q with
          | nil => simp
          | cons d q =>
            simp only [List.isPrefixOf, Bool.and_eq_true, beq_iff_eq, and_true]
            rintro ⟨rfl, -, rfl⟩
            exact hcut ⟨rfl, rfl⟩
        have hempty : splitOnce [':', '/', '/'] ('/' :: q) =
            (splitOnce [':', '/', '/'] q).map fun (before, after) => ('/' :: before, after) := by
          rw [splitOnce, if_neg (by simp)]
        rw [if_neg hnot, if_neg (by simpa using hcut), hempty, Option.map_map]
        rfl
    | cons d s =>
      have hd : d ≠ '/' := fun heq => hs (heq ▸ List.mem_cons_self)
      have hnot : ¬ ([':', '/', '/'] : Text).isPrefixOf (c :: ((d :: s) ++ '/' :: q)) = true := by
        simp [List.isPrefixOf, hd.symm]
      have ih := ih hs
      rw [List.cons_append, splitOnce, if_neg hnot, ih, List.getLast?_cons_cons]
      split
      · rfl
      · rw [Option.map_map]
        rfl

theorem splitOnce_single (h : '/' ∉ s) : splitOnce [':', '/', '/'] s = none := by
  induction s with
  | nil => rfl
  | cons c s ih =>
    have hs : '/' ∉ s := fun hmem => h (List.mem_cons_of_mem _ hmem)
    have hnot : ¬ ([':', '/', '/'] : Text).isPrefixOf (c :: s) = true := by
      cases s with
      | nil => simp
      | cons d s =>
        have hd : d ≠ '/' := fun heq => hs (heq ▸ List.mem_cons_self)
        simp [List.isPrefixOf, hd.symm]
    rw [splitOnce, if_neg hnot, ih hs]
    rfl

theorem cutAfter_eq_some : cutAfter s rest = some t ↔ s.getLast? = some ':' ∧ ∃ more, rest = [] :: t :: more := by
  rw [cutAfter.eq_def]
  split
  · rename_i t' more
    split
    · rename_i hs
      simp [hs]
    · rename_i hs
      simp [hs]
  · rename_i hnot
    refine iff_of_false (by simp) ?_
    rintro ⟨-, more, rfl⟩
    exact hnot t more rfl

theorem splitOnce_of_cutAfter (h : '/' ∉ s) {more : List Text} (hcut : cutAfter s ([] :: t :: more) = some t) :
    splitOnce [':', '/', '/'] (joined (s :: [] :: t :: more)) = some (s.dropLast, joined (t :: more)) := by
  obtain ⟨hlast, -⟩ := cutAfter_eq_some.mp hcut
  have hjoined : joined (s :: [] :: t :: more) = s ++ '/' :: ('/' :: joined (t :: more)) := by
    rw [joined_cons, joined_cons]
    rfl
  rw [hjoined, splitOnce_segment h, if_pos ⟨hlast, rfl⟩]
  rfl

theorem splitOnce_of_not_cutAfter (h : '/' ∉ s) (hrest : ∀ t ∈ rest, '/' ∉ t) (hcut : cutAfter s rest = none) :
    splitOnce [':', '/', '/'] (joined (s :: rest)) =
      (splitOnce [':', '/', '/'] (joined rest)).map fun (before, after) => (s ++ '/' :: before, after) := by
  cases rest with
  | nil =>
    have hsingle : joined [s] = s := List.intercalate_singleton
    rw [hsingle, splitOnce_single h]
    rfl
  | cons t more =>
    have hjoined : joined (s :: t :: more) = s ++ '/' :: joined (t :: more) := by
      rw [joined_cons, joined_cons]
      rfl
    have hnot : ¬ (s.getLast? = some ':' ∧ (joined (t :: more)).head? = some '/') := by
      rintro ⟨hlast, hhead⟩
      rw [joined_cons] at hhead
      cases t with
      | nil =>
        cases more with
        | nil => cases hhead
        | cons u more =>
          rw [cutAfter_eq_some.mpr ⟨hlast, more, rfl⟩] at hcut
          cases hcut
      | cons c t => exact hrest _ List.mem_cons_self (Option.some.inj hhead ▸ List.mem_cons_self)
    rw [hjoined, splitOnce_segment h, if_neg hnot]

/-! ### What is written as it is -/

/-- What is written of what follows the "://". -/
def rendered (after : Text) : Text := hostOf (after.takeWhile (· ≠ '/')) ++ redactPath (after.dropWhile (· ≠ '/'))

def cutTo (n : ℕ) (s : Text) : Text := (s.take n).map clean

theorem cutTo_append (n : ℕ) (s q : Text) : cutTo n (s ++ q) = cutTo n s ++ cutTo (n - s.length) q := by
  rw [cutTo, List.take_append, List.map_append]
  rfl

theorem cutTo_eq_of_le (h : n ≤ s.length) (q q' : Text) : cutTo n (s ++ q) = cutTo n (s ++ q') := by
  rw [cutTo_append, cutTo_append, Nat.sub_eq_zero_of_le h]
  rfl

theorem rendered_joined (h : '/' ∉ t) (more : List Text) :
    rendered (joined (t :: more)) = hostOf t ++ redactPath (more.flatMap ('/' :: ·)) := by
  have hhead : ∀ c ∈ (more.flatMap ('/' :: ·)).head?, c = '/' := by
    cases more with
    | nil => exact fun c hc => (by cases hc)
    | cons u more => exact fun c hc => (Option.some.inj hc).symm
  have hpos : ∀ c ∈ t, decide (c ≠ '/') = true := fun c hc => decide_eq_true fun heq => h (heq ▸ hc)
  have htake : ∀ q : Text, (∀ c ∈ q.head?, c = '/') →
      (t ++ q).takeWhile (· ≠ '/') = t ∧ (t ++ q).dropWhile (· ≠ '/') = q := by
    intro q hq
    rw [List.takeWhile_append_of_pos hpos, List.dropWhile_append_of_pos hpos]
    cases q with
    | nil => exact ⟨List.append_nil t, rfl⟩
    | cons c q =>
      obtain rfl : c = '/' := hq c rfl
      exact ⟨List.append_nil t, rfl⟩
  obtain ⟨hauthority, hpath⟩ := htake _ hhead
  rw [rendered, joined_cons, hauthority, hpath]

theorem le_of_mem_kept (h : kept pos segments = some written) (hk : k ∈ written) : pos ≤ k.1 := by
  induction segments generalizing pos written with
  | nil => cases h
  | cons s rest ih =>
    rw [kept] at h
    split at h
    · obtain rfl := Option.some.inj h
      rw [List.mem_singleton.mp hk]
      exact (Nat.le_add_right _ _).trans (Nat.le_add_right _ _)
    · obtain ⟨written, hrest, rfl⟩ := Option.map_eq_some_iff.mp h
      rcases List.mem_cons.mp hk with rfl | hk
      · exact le_rfl
      · have hle := ih hrest hk
        omega

theorem SameSegment.symm (h : SameSegment s s') : SameSegment s' s :=
  h.imp Eq.symm And.symm

/-- A "://" begins where it did, in the same segment. -/
theorem cutAfter_same {rest rest' : List Text} (hs : SameSegment s s') (hrest : List.Forall₂ SameSegment rest rest')
    (hcut : cutAfter s rest = some t) : s' = s ∧ ∃ more more' t', rest = [] :: t :: more ∧ rest' = [] :: t' :: more' ∧
      SameSegment t t' ∧ List.Forall₂ SameSegment more more' ∧ cutAfter s rest' = some t' := by
  obtain ⟨hlast, more, rfl⟩ := cutAfter_eq_some.mp hcut
  have hcolon : ':' ∈ s := List.mem_of_getLast? hlast
  have heq : s' = s := by
    rcases hs with rfl | ⟨hs, -⟩
    · rfl
    · exact absurd hcolon (notMem_opaque_spec hs).1
  obtain ⟨e, rest₁, hempty, hrest₁, rfl⟩ := List.forall₂_cons_left_iff.mp hrest
  obtain ⟨t', more', ht, hmore, rfl⟩ := List.forall₂_cons_left_iff.mp hrest₁
  have hnil : e = [] := by
    rcases hempty with rfl | ⟨hsecret, -⟩
    · rfl
    · exact absurd rfl (opaque_spec hsecret).1
  rw [hnil]
  exact ⟨heq, more, more', t', rfl, rfl, ht, hmore, cutAfter_eq_some.mpr ⟨hlast, more', rfl⟩⟩

theorem forall₂_symm {l l' : List Text} (h : List.Forall₂ SameSegment l l') : List.Forall₂ SameSegment l' l :=
  h.flip.imp fun _ _ => SameSegment.symm

theorem cutAfter_none_same {rest rest' : List Text} (hs : SameSegment s s')
    (hrest : List.Forall₂ SameSegment rest rest') (hcut : cutAfter s rest = none) : cutAfter s' rest' = none := by
  cases hcut' : cutAfter s' rest' with
  | none => rfl
  | some t =>
    obtain ⟨rfl, more, more', t', rfl, rfl, -, -, hcut''⟩ := cutAfter_same hs.symm (forall₂_symm hrest) hcut'
    rw [hcut] at hcut''
    cases hcut''

/-- A path cut at a "://" is written the same, when no segment of it that looks like a token stands in the `n`
    characters that are kept where it is written as it is. -/
theorem written_same (hsame : List.Forall₂ SameSegment segments segments') (hpath : ∀ s ∈ segments, Segment s)
    (pos : ℕ) :
    (kept pos segments = none ∧ splitOnce [':', '/', '/'] (joined segments) = none ∧
      splitOnce [':', '/', '/'] (joined segments') = none) ∨
    ∃ written before after before' after', kept pos segments = some written ∧
      splitOnce [':', '/', '/'] (joined segments) = some (before, after) ∧
      splitOnce [':', '/', '/'] (joined segments') = some (before', after') ∧
      ∀ n, (∀ k ∈ written, opaqueSegment k.2 = true → pos + n ≤ k.1) →
        cutTo n (before ++ [':', '/', '/'] ++ rendered after) =
          cutTo n (before' ++ [':', '/', '/'] ++ rendered after') := by
  induction hsame generalizing pos with
  | nil => exact .inl ⟨rfl, rfl, rfl⟩
  | cons hs hrest ih =>
    rename_i s s' rest rest'
    obtain ⟨hsegment, hrestPath⟩ := List.forall_mem_cons.mp hpath
    have hsegment' : Segment s' := by
      rcases hs with rfl | ⟨-, hs'⟩
      · exact hsegment
      · exact segment_opaque_spec hs'
    have hpath' : ∀ t ∈ rest', Segment t := forall_of_same (fun _ => segment_opaque_spec) hrest hrestPath
    cases hcut : cutAfter s rest with
    | some t =>
      obtain ⟨rfl, more, more', t', rfl, rfl, ht, hmore, hcut'⟩ := cutAfter_same hs hrest hcut
      have hkept : kept pos (s' :: [] :: t :: more) = some [(pos + s'.length + 2, t)] := by rw [kept, hcut]
      refine .inr ⟨_, _, _, _, _, hkept, splitOnce_of_cutAfter hsegment.no_slash hcut,
        splitOnce_of_cutAfter hsegment.no_slash hcut', fun n hn => ?_⟩
      have hin : t ∈ [] :: t :: more := List.mem_cons_of_mem _ List.mem_cons_self
      have hin' : t' ∈ [] :: t' :: more' := List.mem_cons_of_mem _ List.mem_cons_self
      have hmorePath : ∀ u ∈ more, Segment u := fun u hu =>
        hrestPath u (List.mem_cons_of_mem _ (List.mem_cons_of_mem _ hu))
      rw [rendered_joined (hrestPath t hin).no_slash, rendered_joined (hpath' t' hin').no_slash,
        redactPath_same hmore hmorePath]
      rcases ht with rfl | ⟨ht, -⟩
      · rfl
      · -- the segment after it stands past what is kept
        have hle := hn _ (List.mem_singleton_self _) ht
        refine cutTo_eq_of_le ?_ _ _
        have hlength : s' ≠ [] := fun hnil => by
          rw [hnil] at hcut
          cases hcut
        have hpos := List.length_pos_of_ne_nil hlength
        rw [List.length_append, List.length_dropLast]
        change n ≤ s'.length - 1 + 3
        change pos + n ≤ pos + s'.length + 2 at hle
        omega
    | none =>
      have hslash : ∀ t ∈ rest, '/' ∉ t := fun t ht => (hrestPath t ht).no_slash
      have hslash' : ∀ t ∈ rest', '/' ∉ t := fun t ht => (hpath' t ht).no_slash
      have hkept : kept pos (s :: rest) = (kept (pos + s.length + 1) rest).map ((pos, s) :: ·) := by rw [kept, hcut]
      rw [hkept, splitOnce_of_not_cutAfter hsegment.no_slash hslash hcut,
        splitOnce_of_not_cutAfter hsegment'.no_slash hslash' (cutAfter_none_same hs hrest hcut)]
      obtain ⟨hnone, hsplit, hsplit'⟩ | ⟨written, before, after, before', after', hwritten, hsplit, hsplit', hall⟩ :=
        ih hrestPath (pos + s.length + 1)
      · rw [hnone, hsplit, hsplit']
        exact .inl ⟨rfl, rfl, rfl⟩
      · rw [hwritten, hsplit, hsplit']
        refine .inr ⟨_, _, _, _, _, rfl, rfl, rfl, fun n hn => ?_⟩
        rcases hs with rfl | ⟨hs, -⟩
        · have hrest := hall (n - (s.length + 1)) fun k hk hsecret => by
            have hle := hn k (List.mem_cons_of_mem _ hk) hsecret
            have hge := le_of_mem_kept hwritten hk
            omega
          have happend : ∀ b q : Text, s ++ '/' :: b ++ [':', '/', '/'] ++ q =
              s ++ '/' :: [] ++ (b ++ [':', '/', '/'] ++ q) := fun b q => by simp
          have hlength : (s ++ '/' :: []).length = s.length + 1 := by simp
          rw [happend, happend, cutTo_append n (s ++ '/' :: []), cutTo_append n (s ++ '/' :: []), hlength, hrest]
        · have hle := hn (pos, s) List.mem_cons_self hs
          obtain rfl : n = 0 := by
            change pos + n ≤ pos at hle
            omega
          rfl

/-! ### What a report gives away -/

/-- Another of the segments that look like a token. -/
def vary : Text → Text
  | [] => []
  | c :: s => (if c = '0' then '1' else '0') :: s

theorem opaque_vary (h : opaqueSegment s = true) : opaqueSegment (vary s) = true := by
  cases s with
  | nil => exact h
  | cons c s =>
    rw [opaqueSegment, Bool.and_eq_true, Bool.and_eq_true, List.all_cons, Bool.and_eq_true] at h
    obtain ⟨⟨hlength, -⟩, -, hall⟩ := h
    have hdigit : isAsciiDigit (if c = '0' then '1' else '0') = true ∧
        tokenChar (if c = '0' then '1' else '0') = true := by
      split
      · decide
      · decide
    rw [vary, opaqueSegment, List.any_cons, List.all_cons, hdigit.1, hdigit.2, hall, Bool.true_or, Bool.or_true]
    simpa using hlength

theorem cutTo_vary_ne (h : opaqueSegment s = true) (hn : 0 < n) (q q' : Text) :
    cutTo n (s ++ q) ≠ cutTo n (vary s ++ q') := by
  obtain ⟨n, rfl⟩ := Nat.exists_eq_add_one_of_ne_zero hn.ne'
  have hplain : ∀ c : Char, tokenChar c = true → clean c = c := fun c hc =>
    clean_of_plain (plain_of_pchar (pchar_of_tokenChar hc).1)
  cases s with
  | nil => exact absurd rfl (opaque_spec h).1
  | cons c s =>
    have hc := hplain c ((opaque_spec h).2 c List.mem_cons_self)
    have hc' := hplain _ ((opaque_spec (opaque_vary h)).2 _ List.mem_cons_self)
    intro heq
    have hhead : clean c = clean (if c = '0' then '1' else '0') := (List.cons.inj heq).1
    rw [hc, hc'] at hhead
    split at hhead
    · rename_i hzero
      rw [hzero] at hhead
      exact absurd hhead (by decide)
    · rename_i hzero
      exact hzero hhead

theorem hostOf_of_notMem (h : '@' ∉ t) : hostOf t = t :=
  List.rtakeWhile_eq_self_iff.mpr fun _ hc => decide_eq_true fun heq => h (heq ▸ hc)

theorem sameSegments_refl (l : List Text) : List.Forall₂ SameSegment l l := List.forall₂_same.mpr fun _ _ => .inl rfl

/-- A segment that looks like a token, and is written as it is in the `n` characters that are kept, could have been
    another. -/
theorem written_varies (hpath : ∀ s ∈ segments, Segment s) (hkept : kept pos segments = some written) (hk : k ∈ written)
    (hsecret : opaqueSegment k.2 = true) (hlt : k.1 < pos + n) :
    ∃ segments', List.Forall₂ SameSegment segments segments' ∧ ∀ before after before' after',
      splitOnce [':', '/', '/'] (joined segments) = some (before, after) →
      splitOnce [':', '/', '/'] (joined segments') = some (before', after') →
      cutTo n (before ++ [':', '/', '/'] ++ rendered after) ≠
        cutTo n (before' ++ [':', '/', '/'] ++ rendered after') := by
  induction segments generalizing pos n written with
  | nil => cases hkept
  | cons s rest ih =>
    obtain ⟨hsegment, hrestPath⟩ := List.forall_mem_cons.mp hpath
    have hslash : ∀ l : List Text, (∀ t ∈ l, Segment t) → ∀ t ∈ l, '/' ∉ t := fun l hl t ht => (hl t ht).no_slash
    rw [kept] at hkept
    cases hcut : cutAfter s rest with
    | some t =>
      rw [hcut] at hkept
      obtain rfl := Option.some.inj hkept
      rw [List.mem_singleton.mp hk] at hsecret hlt
      obtain ⟨hlast, more, rfl⟩ := cutAfter_eq_some.mp hcut
      refine ⟨s :: [] :: vary t :: more, .cons (.inl rfl) (.cons (.inl rfl)
        (.cons (.inr ⟨hsecret, opaque_vary hsecret⟩) (sameSegments_refl more))), ?_⟩
      intro before after before' after' hsplit hsplit'
      rw [splitOnce_of_cutAfter hsegment.no_slash hcut] at hsplit
      rw [splitOnce_of_cutAfter hsegment.no_slash (cutAfter_eq_some.mpr ⟨hlast, more, rfl⟩)] at hsplit'
      obtain ⟨rfl, rfl⟩ := Prod.mk.inj (Option.some.inj hsplit)
      obtain ⟨rfl, rfl⟩ := Prod.mk.inj (Option.some.inj hsplit')
      rw [rendered_joined (segment_opaque_spec hsecret).no_slash,
        rendered_joined (segment_opaque_spec (opaque_vary hsecret)).no_slash,
        hostOf_of_notMem (notMem_opaque_spec hsecret).2, hostOf_of_notMem (notMem_opaque_spec (opaque_vary hsecret)).2,
        cutTo_append n (s.dropLast ++ [':', '/', '/']), cutTo_append n (s.dropLast ++ [':', '/', '/'])]
      intro heq
      have hs : s ≠ [] := fun hnil => by
        rw [hnil] at hlast
        cases hlast
      have hpos := List.length_pos_of_ne_nil hs
      have hlength : (s.dropLast ++ [':', '/', '/']).length = s.length + 2 := by
        rw [List.length_append, List.length_dropLast]
        change s.length - 1 + 3 = s.length + 2
        omega
      refine cutTo_vary_ne hsecret ?_ _ _ (List.append_cancel_left heq)
      rw [hlength]
      change pos + s.length + 2 < pos + n at hlt
      omega
    | none =>
      rw [hcut] at hkept
      obtain ⟨written, hwritten, rfl⟩ := Option.map_eq_some_iff.mp hkept
      rcases List.mem_cons.mp hk with rfl | hk
      · have hvary : SameSegment s (vary s) := .inr ⟨hsecret, opaque_vary hsecret⟩
        refine ⟨vary s :: rest, .cons hvary (sameSegments_refl rest), ?_⟩
        intro before after before' after' hsplit hsplit'
        rw [splitOnce_of_not_cutAfter hsegment.no_slash (hslash rest hrestPath) hcut] at hsplit
        rw [splitOnce_of_not_cutAfter (segment_opaque_spec (opaque_vary hsecret)).no_slash (hslash rest hrestPath)
          (cutAfter_none_same hvary (sameSegments_refl rest) hcut)] at hsplit'
        obtain ⟨⟨b, a⟩, -, hbefore⟩ := Option.map_eq_some_iff.mp hsplit
        obtain ⟨⟨b', a'⟩, -, hbefore'⟩ := Option.map_eq_some_iff.mp hsplit'
        obtain ⟨rfl, rfl⟩ := Prod.mk.inj hbefore
        obtain ⟨rfl, rfl⟩ := Prod.mk.inj hbefore'
        have hn : 0 < n := by
          change pos < pos + n at hlt
          omega
        rw [List.append_assoc, List.append_assoc, List.append_assoc, List.append_assoc]
        exact cutTo_vary_ne hsecret hn _ _
      · have hge := le_of_mem_kept hwritten hk
        obtain ⟨rest', hsame, hne⟩ :=
          @ih (pos + s.length + 1) (n - (s.length + 1)) written hrestPath hwritten hk (by omega)
        refine ⟨s :: rest', .cons (.inl rfl) hsame, ?_⟩
        intro before after before' after' hsplit hsplit'
        have hrestPath' : ∀ t ∈ rest', Segment t := forall_of_same (fun _ => segment_opaque_spec) hsame hrestPath
        rw [splitOnce_of_not_cutAfter hsegment.no_slash (hslash rest hrestPath) hcut] at hsplit
        rw [splitOnce_of_not_cutAfter hsegment.no_slash (hslash rest' hrestPath')
          (cutAfter_none_same (.inl rfl) hsame hcut)] at hsplit'
        obtain ⟨⟨b, a⟩, hrest, hbefore⟩ := Option.map_eq_some_iff.mp hsplit
        obtain ⟨⟨b', a'⟩, hrest', hbefore'⟩ := Option.map_eq_some_iff.mp hsplit'
        obtain ⟨rfl, rfl⟩ := Prod.mk.inj hbefore
        obtain ⟨rfl, rfl⟩ := Prod.mk.inj hbefore'
        have happend : ∀ b q : Text, s ++ '/' :: b ++ [':', '/', '/'] ++ q =
            s ++ '/' :: [] ++ (b ++ [':', '/', '/'] ++ q) := fun b q => by simp
        have hlength : (s ++ '/' :: []).length = s.length + 1 := by simp
        rw [happend, happend, cutTo_append n (s ++ '/' :: []), cutTo_append n (s ++ '/' :: []), hlength]
        exact fun heq => hne _ _ _ _ hrest hrest' (List.append_cancel_left heq)

end Paths

/-! ### What is logged of a URL -/

section Urls

variable {url url' scheme user host tail s : Text} {segments segments' : List Text} {c : Char}

/-- The characters of a URL. -/
def Graphic (s : Text) : Prop := ∀ c ∈ s, 33 ≤ c.toNat ∧ c.toNat ≤ 126

theorem Graphic.append {q : Text} (h : Graphic s) (hq : Graphic q) : Graphic (s ++ q) := fun c hc =>
  (List.mem_append.mp hc).elim (h c) (hq c)

theorem Graphic.trim_eq (h : Graphic s) : trim s = s := trim_eq_self fun c hc => isWhitespace_of_range (h c hc)

theorem graphic_of_plain (h : ∀ c ∈ s, Plain c) : Graphic s := fun c hc => ⟨(h c hc).1, (h c hc).2.1⟩

theorem graphic_sep : Graphic [':', '/', '/'] := by
  have hall : ∀ c ∈ [':', '/', '/'], 33 ≤ c.toNat ∧ c.toNat ≤ 126 := by decide
  exact hall

theorem plain_of_queryChar (h : queryChar c = true) : 33 ≤ c.toNat ∧ c.toNat ≤ 126 := by
  rw [queryChar, Bool.or_eq_true, Bool.or_eq_true, decide_eq_true_iff, decide_eq_true_iff] at h
  rcases h with (h | rfl) | rfl
  · exact ⟨(plain_of_pchar h).1, (plain_of_pchar h).2.1⟩
  · decide
  · decide

theorem graphic_of_query (h : encoded queryChar s = true) : Graphic s := by
  intro c hc
  rcases of_mem_encoded h c hc with hc | rfl | hc
  · exact plain_of_queryChar hc
  · decide
  · exact ⟨(plain_of_alphanumeric hc).1.1, (plain_of_alphanumeric hc).1.2.1⟩

theorem Tail.graphic (h : Tail tail) : Graphic tail := by
  obtain ⟨query, fragment, rfl, hquery, hfragment⟩ := h
  have hcons : ∀ c : Char, 33 ≤ c.toNat ∧ c.toNat ≤ 126 → ∀ part : Option Text,
      (∀ q ∈ part, encoded queryChar q = true) → Graphic (part.elim [] (c :: ·)) := by
    intro c hc part hpart d hd
    cases part with
    | none => cases hd
    | some q =>
      rcases List.mem_cons.mp hd with rfl | hd
      · exact hc
      · exact graphic_of_query (hpart q rfl) d hd
  exact (hcons '?' (by decide) query hquery).append (hcons '#' (by decide) fragment hfragment)

theorem Tail.head (h : Tail tail) : ∀ c ∈ tail.head?, c = '?' ∨ c = '#' := by
  obtain ⟨query, fragment, rfl, -, -⟩ := h
  intro c hc
  cases query with
  | some q => exact .inl (Option.some.inj hc).symm
  | none =>
    cases fragment with
    | some f => exact .inr (Option.some.inj hc).symm
    | none => cases hc

/-- The query and the fragment are cut off. -/
theorem takeWhile_tail (htail : Tail tail) (h : ∀ c ∈ s, c ≠ '?' ∧ c ≠ '#') :
    ((s ++ tail).takeWhile fun c => c ≠ '?' ∧ c ≠ '#') = s := by
  rw [List.takeWhile_append_of_pos fun c hc => decide_eq_true (h c hc)]
  cases tail with
  | nil => exact List.append_nil s
  | cons c tail =>
    have hc : decide (c ≠ '?' ∧ c ≠ '#') = false := by
      rcases htail.head c rfl with rfl | rfl
      · decide
      · decide
    rw [List.takeWhile_cons_of_neg (by rw [hc]; exact Bool.false_ne_true), List.append_nil]

theorem scheme_spec (h : isScheme scheme = true) : scheme ≠ [] ∧
    ∀ c ∈ scheme, isAsciiAlphanumeric c = true ∨ c = '+' ∨ c = '-' ∨ c = '.' := by
  cases scheme with
  | nil => cases h
  | cons c rest =>
    rw [isScheme, Bool.and_eq_true, List.all_eq_true] at h
    refine ⟨List.cons_ne_nil _ _, fun d hd => ?_⟩
    rcases List.mem_cons.mp hd with rfl | hd
    · exact .inl (by rw [isAsciiAlphanumeric, h.1, Bool.true_or])
    · have hd := h.2 d hd
      simp only [Bool.or_eq_true, decide_eq_true_iff] at hd
      rcases hd with ((hd | hd) | hd) | hd
      · exact .inl hd
      · exact .inr (.inl hd)
      · exact .inr (.inr (.inl hd))
      · exact .inr (.inr (.inr hd))

theorem scheme_plain (h : isScheme scheme = true) : ∀ c ∈ scheme, Plain c ∧ c ≠ ':' := by
  intro c hc
  rcases (scheme_spec h).2 c hc with hc | rfl | rfl | rfl
  · exact ⟨(plain_of_alphanumeric hc).1, (plain_of_alphanumeric hc).2.2.1⟩
  · exact ⟨⟨by decide, by decide, by decide, by decide, by decide⟩, by decide⟩
  · exact ⟨⟨by decide, by decide, by decide, by decide, by decide⟩, by decide⟩
  · exact ⟨⟨by decide, by decide, by decide, by decide, by decide⟩, by decide⟩

theorem encoded_plain {allowed : Char → Bool} (hallowed : ∀ c, allowed c = true → Plain c ∧ c ≠ '@')
    (h : encoded allowed s = true) : ∀ c ∈ s, Plain c ∧ c ≠ '@' := by
  intro c hc
  rcases of_mem_encoded h c hc with hc | rfl | hc
  · exact hallowed c hc
  · exact ⟨plain_percent, by decide⟩
  · exact ⟨(plain_of_alphanumeric hc).1, (plain_of_alphanumeric hc).2.1⟩

theorem Host.plain (h : Host host) : ∀ c ∈ host, Plain c ∧ c ≠ '@' := by
  obtain ⟨name, port, rfl, hname, hport⟩ := h
  intro c hc
  rcases List.mem_append.mp hc with hc | hc
  · rcases hname with hname | ⟨ip, rfl, hip⟩
    · exact encoded_plain (fun _ => plain_of_nameChar) hname c hc
    · rcases List.mem_append.mp hc with hc | hc
      · rcases List.mem_cons.mp hc with rfl | hc
        · exact ⟨⟨by decide, by decide, by decide, by decide, by decide⟩, by decide⟩
        · exact plain_of_userChar (hip c hc)
      · rw [List.mem_singleton.mp hc]
        exact ⟨⟨by decide, by decide, by decide, by decide, by decide⟩, by decide⟩
  · rcases hport with rfl | ⟨digits, rfl, hdigits⟩
    · cases hc
    · rcases List.mem_cons.mp hc with rfl | hc
      · exact ⟨⟨by decide, by decide, by decide, by decide, by decide⟩, by decide⟩
      · have halnum : isAsciiAlphanumeric c = true := by rw [isAsciiAlphanumeric, hdigits c hc, Bool.or_true]
        exact ⟨(plain_of_alphanumeric halnum).1, (plain_of_alphanumeric halnum).2.1⟩

theorem Userinfo.plain (h : Userinfo user) : ∀ c ∈ user, Plain c := by
  rcases h with rfl | ⟨u, rfl, hu⟩
  · exact fun c hc => absurd hc List.not_mem_nil
  · intro c hc
    rcases List.mem_append.mp hc with hc | hc
    · exact (encoded_plain (fun _ => plain_of_userChar) hu c hc).1
    · rw [List.mem_singleton.mp hc]
      exact ⟨by decide, by decide, by decide, by decide, by decide⟩

/-- The userinfo is cut off. -/
theorem hostOf_userinfo (huser : Userinfo user) (hhost : '@' ∉ host) : hostOf (user ++ host) = host := by
  have hall : ∀ c ∈ host.reverse, decide (c ≠ '@') = true := fun c hc =>
    decide_eq_true fun heq => hhost (heq ▸ List.mem_reverse.mp hc)
  rcases huser with rfl | ⟨u, rfl, -⟩
  · exact hostOf_of_notMem hhost
  · rw [hostOf, List.rtakeWhile, List.reverse_append, List.takeWhile_append_of_pos hall, List.reverse_concat,
      List.takeWhile_cons_of_neg (by simp), List.append_nil, List.reverse_reverse]

theorem flatMap_plain (hpath : ∀ s ∈ segments, Segment s) :
    ∀ c ∈ segments.flatMap ('/' :: ·), (33 ≤ c.toNat ∧ c.toNat ≤ 126) ∧ c ≠ '?' ∧ c ≠ '#' := by
  intro c hc
  obtain ⟨s, hs, hc⟩ := List.mem_flatMap.mp hc
  rcases List.mem_cons.mp hc with rfl | hc
  · decide
  · have hplain := (hpath s hs).plain hc
    exact ⟨⟨hplain.1, hplain.2.1⟩, hplain.2.2.2⟩

theorem joined_plain (hne : segments ≠ []) (hpath : ∀ s ∈ segments, Segment s) :
    ∀ c ∈ joined segments, (33 ≤ c.toNat ∧ c.toNat ≤ 126) ∧ c ≠ '?' ∧ c ≠ '#' := by
  obtain ⟨s, rest, rfl⟩ := List.exists_cons_of_ne_nil hne
  rw [joined_cons]
  intro c hc
  rcases List.mem_append.mp hc with hc | hc
  · have hplain := (hpath s List.mem_cons_self).plain hc
    exact ⟨⟨hplain.1, hplain.2.1⟩, hplain.2.2.2⟩
  · exact flatMap_plain (fun t ht => hpath t (List.mem_cons_of_mem _ ht)) c hc

theorem redactUrl_hierarchical (hscheme : isScheme scheme = true) (huser : Userinfo user) (hhost : Host host)
    (hpath : ∀ s ∈ segments, Segment s) (htail : Tail tail) :
    redactUrl (scheme ++ [':', '/', '/'] ++ (user ++ host ++ segments.flatMap ('/' :: ·) ++ tail)) =
      cut (scheme ++ [':', '/', '/'] ++ host ++ redactPath (segments.flatMap ('/' :: ·))) := by
  have hcolon : ':' ∉ scheme := fun hc => (scheme_plain hscheme _ hc).2 rfl
  have huserHost : ∀ c ∈ user ++ host, Plain c := fun c hc =>
    (List.mem_append.mp hc).elim (huser.plain c) fun hc => (hhost.plain c hc).1
  have htrim : trim (scheme ++ [':', '/', '/'] ++ (user ++ host ++ segments.flatMap ('/' :: ·) ++ tail)) =
      scheme ++ [':', '/', '/'] ++ (user ++ host ++ segments.flatMap ('/' :: ·) ++ tail) :=
    (((graphic_of_plain fun c hc => (scheme_plain hscheme c hc).1).append graphic_sep).append
      (((graphic_of_plain huserHost).append fun c hc => (flatMap_plain hpath c hc).1).append htail.graphic)).trim_eq
  have hfirst : splitOnce [':'] (scheme ++ [':', '/', '/'] ++ (user ++ host ++ segments.flatMap ('/' :: ·) ++ tail)) =
      some (scheme, '/' :: '/' :: (user ++ host ++ segments.flatMap ('/' :: ·) ++ tail)) := by
    rw [List.append_assoc scheme]
    exact splitOnce_char hcolon _
  have hcutTail : ((scheme ++ [':', '/', '/'] ++ (user ++ host ++ segments.flatMap ('/' :: ·) ++ tail)).takeWhile
      fun c => c ≠ '?' ∧ c ≠ '#') = scheme ++ [':', '/', '/'] ++ (user ++ host ++ segments.flatMap ('/' :: ·)) := by
    rw [← List.append_assoc (scheme ++ [':', '/', '/'])]
    refine takeWhile_tail htail fun c hc => ?_
    rcases List.mem_append.mp hc with hc | hc
    · rcases List.mem_append.mp hc with hc | hc
      · exact (scheme_plain hscheme c hc).1.2.2.2
      · have hall : ∀ c ∈ [':', '/', '/'], c ≠ '?' ∧ c ≠ '#' := by decide
        exact hall c hc
    · rcases List.mem_append.mp hc with hc | hc
      · exact (huserHost c hc).2.2.2
      · exact (flatMap_plain hpath c hc).2
  have hrendered := rendered_joined (fun hc => (huserHost _ hc).2.2.1 rfl) segments
  rw [joined_cons, rendered, hostOf_userinfo huser fun hc => (hhost.plain _ hc).2 rfl] at hrendered
  rw [redactUrl, htrim, hfirst]
  simp only [Option.filter_some, List.isPrefixOf_cons_cons_self, List.isPrefixOf_nil_left, Bool.not_true,
    Bool.and_false, Bool.false_eq_true, if_false]
  rw [hcutTail, splitOnce_scheme hcolon]
  dsimp only
  rw [List.append_assoc _ (hostOf _), hrendered, ← List.append_assoc]

theorem redactUrl_rootless (hscheme : isScheme scheme = true) (hpath : Path segments) (htail : Tail tail) :
    redactUrl (scheme ++ ':' :: (joined segments ++ tail)) = cut scheme := by
  have hcolon : ':' ∉ scheme := fun hc => (scheme_plain hscheme _ hc).2 rfl
  have htrim : trim (scheme ++ ':' :: (joined segments ++ tail)) = scheme ++ ':' :: (joined segments ++ tail) := by
    have hgraphic : Graphic (scheme ++ ([':'] ++ (joined segments ++ tail))) := by
      refine (graphic_of_plain fun c hc => (scheme_plain hscheme c hc).1).append (Graphic.append ?_ (Graphic.append
        (fun c hc => (joined_plain hpath.ne_nil hpath.segment c hc).1) htail.graphic))
      intro c hc
      rw [List.mem_singleton.mp hc]
      decide
    exact hgraphic.trim_eq
  have hslashes : (['/', '/'] : Text).isPrefixOf (joined segments ++ tail) = false := by
    obtain ⟨s, rest, rfl⟩ := List.exists_cons_of_ne_nil hpath.ne_nil
    have hs := (hpath.segment s List.mem_cons_self).no_slash
    rw [joined_cons]
    cases s with
    | cons c s =>
      have hc : '/' ≠ c := fun heq => hs (heq ▸ List.mem_cons_self)
      simp [List.isPrefixOf, hc]
    | nil =>
      cases rest with
      | nil =>
        have hhead := htail.head
        cases tail with
        | nil => rfl
        | cons c tail =>
          rcases hhead c rfl with rfl | rfl
          · rfl
          · rfl
      | cons t rest =>
        cases t with
        | cons c t =>
          have hin : (c :: t) ∈ [] :: (c :: t) :: rest := List.mem_cons_of_mem _ List.mem_cons_self
          have hc : '/' ≠ c := fun heq => (hpath.segment _ hin).no_slash (heq ▸ List.mem_cons_self)
          simp [List.isPrefixOf, hc]
        | nil =>
          cases rest with
          | cons x rest => exact absurd rfl (hpath.single x rest)
          | nil =>
            have hhead := htail.head
            cases tail with
            | nil => rfl
            | cons c tail =>
              rcases hhead c rfl with rfl | rfl
              · rfl
              · rfl
  rw [redactUrl, htrim, splitOnce_char hcolon]
  simp only [Option.filter_some, hscheme, hslashes, Bool.not_false, Bool.and_self, if_true]

/-- What is before the first ":" of a path is no scheme. -/
theorem not_isScheme_of_path (hpath : Path segments) (hfirst : ':' ∉ segments.headD []) (htail : Tail tail)
    {before after : Text} (h : splitOnce [':'] (joined segments ++ tail) = some (before, after)) :
    isScheme before = false := by
  refine Bool.eq_false_iff.mpr fun hscheme => ?_
  obtain ⟨s, rest, rfl⟩ := List.exists_cons_of_ne_nil hpath.ne_nil
  have htext := eq_of_splitOnce h
  have hs : ∀ c ∈ s, decide (c ≠ '/' ∧ c ≠ '?' ∧ c ≠ '#') = true := fun c hc =>
    decide_eq_true ((hpath.segment s List.mem_cons_self).plain hc).2.2
  -- up to the first "/", "?" or "#" the text is the first segment; a scheme and its ":" would be in it
  have hsegment : ((joined (s :: rest) ++ tail).takeWhile fun c => c ≠ '/' ∧ c ≠ '?' ∧ c ≠ '#') = s := by
    rw [joined_cons, List.append_assoc, List.takeWhile_append_of_pos hs]
    cases rest with
    | cons t rest => exact List.append_nil s
    | nil =>
      have hhead := htail.head
      cases tail with
      | nil => exact List.append_nil s
      | cons c tail =>
        rcases hhead c rfl with rfl | rfl
        · exact List.append_nil s
        · exact List.append_nil s
  have hbefore : ∀ c ∈ before ++ [':'], decide (c ≠ '/' ∧ c ≠ '?' ∧ c ≠ '#') = true := by
    intro c hc
    rcases List.mem_append.mp hc with hc | hc
    · exact decide_eq_true (scheme_plain hscheme c hc).1.2.2
    · rw [List.mem_singleton.mp hc]
      decide
  rw [htext, List.takeWhile_append_of_pos hbefore] at hsegment
  refine hfirst ?_
  rw [List.headD_cons, ← hsegment]
  exact List.mem_append_left _ (List.mem_append_right _ (List.mem_singleton_self _))

theorem redactUrl_path (hpath : Path segments) (hfirst : ':' ∉ segments.headD []) (htail : Tail tail) :
    redactUrl (joined segments ++ tail) = (splitOnce [':', '/', '/'] (joined segments)).elim
      (cut (redactPath (joined segments)))
      fun (before, after) => cut (before ++ [':', '/', '/'] ++ rendered after) := by
  have hgraphic : Graphic (joined segments ++ tail) :=
    Graphic.append (fun c hc => (joined_plain hpath.ne_nil hpath.segment c hc).1) htail.graphic
  have hnone : ((splitOnce [':'] (joined segments ++ tail)).filter fun (scheme, rest) =>
      isScheme scheme && ! ['/', '/'].isPrefixOf rest) = none := by
    cases hsplit : splitOnce [':'] (joined segments ++ tail) with
    | none => rfl
    | some cutAt =>
      obtain ⟨before, after⟩ := cutAt
      rw [Option.filter_some]
      simp only [not_isScheme_of_path hpath hfirst htail hsplit, Bool.false_and, Bool.false_eq_true, if_false]
  rw [redactUrl, hgraphic.trim_eq]
  dsimp only
  rw [hnone, takeWhile_tail htail fun c hc => (joined_plain hpath.ne_nil hpath.segment c hc).2]
  cases splitOnce [':', '/', '/'] (joined segments) with
  | none => rfl
  | some cutAt =>
    obtain ⟨before, after⟩ := cutAt
    dsimp only [Option.elim_some]
    rw [rendered, ← List.append_assoc]

theorem Path.of_same (h : Path segments) (hsame : List.Forall₂ SameSegment segments segments') : Path segments' where
  ne_nil := by
    rintro rfl
    exact h.ne_nil (List.forall₂_nil_right_iff.mp hsame)
  segment := forall_of_same (fun _ => segment_opaque_spec) hsame h.segment
  single := by
    have hnil : ∀ {s : Text}, SameSegment s [] → s = [] := by
      rintro s (rfl | ⟨-, hs⟩)
      · rfl
      · exact absurd rfl (opaque_spec hs).1
    rintro x rest rfl
    obtain ⟨s, l, hs, hl, rfl⟩ := List.forall₂_cons_right_iff.mp hsame
    obtain ⟨t, l', ht, hl', rfl⟩ := List.forall₂_cons_right_iff.mp hl
    obtain ⟨u, l'', -, -, rfl⟩ := List.forall₂_cons_right_iff.mp hl'
    rw [hnil hs, hnil ht] at h
    exact h.single u l'' rfl

theorem headD_of_same (hsame : List.Forall₂ SameSegment segments segments') (h : ':' ∉ segments.headD []) :
    ':' ∉ segments'.headD [] := by
  cases hsame with
  | nil => exact h
  | cons hs _ =>
    rcases hs with rfl | ⟨-, hs'⟩
    · exact h
    · exact (notMem_opaque_spec hs').1

/-- Of a URL nothing of its secrets is logged; of a path, unless it is exposed. -/
theorem redactUrl_same (h : SameUrl url url') (hexposed : ¬ Exposed url) : redactUrl url = redactUrl url' := by
  cases h with
  | hierarchical hscheme huser huser' hhost hpath hsame htail htail' =>
    have hpath' := forall_of_same (fun _ => segment_opaque_spec) hsame hpath
    rw [redactUrl_hierarchical hscheme huser hhost hpath htail,
      redactUrl_hierarchical hscheme huser' hhost hpath' htail', redactPath_same hsame hpath]
  | rootless hscheme hpath hsame htail htail' =>
    rw [redactUrl_rootless hscheme hpath htail, redactUrl_rootless hscheme (hpath.of_same hsame) htail']
  | path hpath hfirst hsame htail htail' =>
    rename_i tail tail' segments segments'
    rw [redactUrl_path hpath hfirst htail, redactUrl_path (hpath.of_same hsame) (headD_of_same hsame hfirst) htail']
    obtain ⟨-, hsplit, hsplit'⟩ | ⟨written, before, after, before', after', hwritten, hsplit, hsplit', hall⟩ :=
      written_same hsame hpath.segment 0
    · rw [hsplit, hsplit', Option.elim_none, Option.elim_none,
        redactPath_joined hpath.ne_nil fun s hs => (hpath.segment s hs).no_slash,
        redactPath_joined (hpath.of_same hsame).ne_nil fun s hs => ((hpath.of_same hsame).segment s hs).no_slash,
        map_redactSegment hsame]
    · rw [hsplit, hsplit']
      refine hall MAX_FIELD_CHARS fun k hk hsecret => ?_
      by_contra hlt
      exact hexposed ⟨segments, tail, rfl, hpath, hfirst, htail, written, hwritten, k, hk, hsecret, by omega⟩

/-- Where it is exposed, another path would have been logged. -/
theorem redactUrl_varies (h : Exposed url) : ∃ url', SameUrl url url' ∧ redactUrl url ≠ redactUrl url' := by
  obtain ⟨segments, tail, rfl, hpath, hfirst, htail, written, hwritten, k, hk, hsecret, hlt⟩ := h
  obtain ⟨segments', hsame, hne⟩ := @written_varies _ 0 MAX_FIELD_CHARS _ _ hpath.segment hwritten hk hsecret (by omega)
  refine ⟨joined segments' ++ tail, .path hpath hfirst hsame htail htail, ?_⟩
  rw [redactUrl_path hpath hfirst htail, redactUrl_path (hpath.of_same hsame) (headD_of_same hsame hfirst) htail]
  obtain ⟨hnone, -⟩ | ⟨_, before, after, before', after', -, hsplit, hsplit', -⟩ := written_same hsame hpath.segment 0
  · rw [hwritten] at hnone
    cases hnone
  · rw [hsplit, hsplit']
    exact hne _ _ _ _ hsplit hsplit'

end Urls

end Home.CspReport
