import Mathlib.Data.List.ReduceOption
import ManageOurHome.Stocks.DigitalLink
import ManageOurHome.Stocks.Gs1Date

/-! @src apps/api/src/stocks/gs1.rs | layer:proof | family:barcodes

    An element string is read as what was encoded. The reader stands at the start of an element before each turn: a
    predefined length takes it to the start of the next, a separator that it steps over does the same for the others.

        ]d2 <GS>  01·03017620422003  10·17271231  <GS>  17·270131      (10) is a lot, whatever it looks like -/

namespace Home.Stocks

open Home.HttpGuard (splitOnce eqIgnoreAsciiCase http https eq_of_splitOnce)

/-! ### Characters -/

/-- A character an element string can start with. -/
structure Opens (c : Char) : Prop where
  space : isWhitespace c = false
  scheme : c.toLower ∉ https
  bracket : c ≠ ']'

/-- A digit is one byte, and none of the characters that part a text. -/
structure DigitChar (c : Char) : Prop extends Opens c where
  byte : c.utf8Size = 1
  separator : c ≠ GS

theorem byte_of_visible {c : Char} (h : 33 ≤ c.toNat ∧ c.toNat ≤ 126) : c.utf8Size = 1 := by
  have hle : c.val ≤ 0x7f := by
    rw [UInt32.le_iff_toNat_le]
    exact h.2.trans (by decide)
  exact if_pos hle

theorem toLower_of_isDigit {c : Char} (h : c.isDigit = true) : c.toLower = c := by
  have hle : ¬ 'A'.val ≤ c.val := by
    rw [UInt32.le_iff_toNat_le]
    have hhi := (Char.isDigit_iff_toNat.mp h).2
    exact fun hlo => absurd (hlo.trans hhi) (by decide)
  exact dif_neg (not_and_of_not_left _ hle)

theorem notMem_https {c : Char} (h : c.isDigit = true) : c.toLower ∉ https := by
  rw [toLower_of_isDigit h]
  intro hmem
  have hnone : https.all fun c => !c.isDigit := rfl
  have := List.all_eq_true.mp hnone c hmem
  rw [h] at this
  exact absurd this (by decide)

theorem ne_of_isDigit {c d : Char} (h : c.isDigit = true) (hd : d.isDigit = false) : c ≠ d := by
  rintro rfl
  rw [h] at hd
  exact absurd hd (by decide)

theorem digitChar {c : Char} (h : c.isDigit = true) : DigitChar c where
  space := isWhitespace_of_isDigit h
  scheme := notMem_https h
  bracket := ne_of_isDigit h rfl
  byte := by
    have hrange := Char.isDigit_iff_toNat.mp h
    exact byte_of_visible ⟨le_trans (by decide) hrange.1, hrange.2.trans (by decide)⟩
  separator := ne_of_isDigit h rfl

theorem space_of_visible {c : Char} (h : 33 ≤ c.toNat ∧ c.toNat ≤ 126) : isWhitespace c = false := by
  rw [isWhitespace, decide_eq_false_iff_not]
  omega

theorem splitAtByte_append {a b : Text} (h : ∀ c ∈ a, c.utf8Size = 1) : splitAtByte a.length (a ++ b) = some (a, b) := by
  induction a with
  | nil => cases b <;> rfl
  | cons c a ih =>
    have hc : c.utf8Size = 1 := h c List.mem_cons_self
    rw [List.length_cons, List.cons_append, splitAtByte, hc, if_pos (by omega), Nat.add_sub_cancel,
      ih fun x hx => h x (List.mem_cons_of_mem c hx)]
    rfl

/-! ### The encoding -/

/-- An element: one of a predefined length has that length and digits alone, any other is free of the separator. (01),
    (17) and (15) are whole: no longer AI starts with them. -/
structure Element where
  ai : Text
  value : Text
  ai_digits : ai.all Char.isDigit = true
  ai_length : 2 ≤ ai.length ∧ ai.length ≤ 4
  whole : ai.take 2 ∈ [['0', '1'], ['1', '7'], ['1', '5']] → ai.length = 2
  fixed : ∀ len, predefinedLength (ai.take 2) = some len → value.all Char.isDigit = true ∧ ai.length + value.length = len
  free : predefinedLength (ai.take 2) = none → GS ∉ value

def Element.text (e : Element) : Text := e.ai ++ e.value

/-- What stands between an element and the next one. -/
def Element.separator (e : Element) : Text := if predefinedLength (e.ai.take 2) = none then [GS] else []

/-- The elements one after the other, a separator after each of variable length that is not last. -/
def encode : List Element → Text
  | [] => []
  | [e] => e.text
  | e :: f :: es => e.text ++ e.separator ++ encode (f :: es)

/-- A symbology identifier: a `]` and two visible ASCII characters. -/
structure Symbology where
  code : Char
  modifier : Char
  visible : ∀ c ∈ [code, modifier], 33 ≤ c.toNat ∧ c.toNat ≤ 126

def Symbology.text (s : Symbology) : Text := [']', s.code, s.modifier]

/-- The first value of an AI. -/
def first (ai : Text) (es : List Element) : Option Text := (es.find? fun e => e.ai = ai).map Element.value

variable {e : Element} {es : List Element} {fields : Fields} {n : ℕ}

theorem Element.ai_ne_nil (e : Element) : e.ai ≠ [] := fun h => by
  have := e.ai_length.1
  rw [h] at this
  exact absurd this (by decide)

theorem Element.digit_of_mem_ai {c : Char} (e : Element) (h : c ∈ e.ai) : DigitChar c :=
  digitChar (List.all_eq_true.mp e.ai_digits c h)

theorem encode_cons : encode (e :: es) = e.text ++ ((if es = [] then [] else e.separator) ++ encode es) := by
  cases es with
  | nil => simp [encode]
  | cons f es => rw [encode, if_neg (List.cons_ne_nil f es), List.append_assoc]

/-! ### A turn -/

theorem take_two (e : Element) (tail : Text) : splitAtByte 2 (e.text ++ tail) = some (e.ai.take 2, e.ai.drop 2 ++ e.value ++ tail) := by
  have hlen : (e.ai.take 2).length = 2 := by
    rw [List.length_take]
    have := e.ai_length.1
    omega
  have hsplit : e.text ++ tail = e.ai.take 2 ++ (e.ai.drop 2 ++ e.value ++ tail) := by
    rw [← List.append_assoc, ← List.append_assoc, List.take_append_drop, Element.text]
  have hbyte : ∀ c ∈ e.ai.take 2, c.utf8Size = 1 := fun c hc => (e.digit_of_mem_ai (List.mem_of_mem_take hc)).byte
  rw [hsplit, ← splitAtByte_append hbyte, hlen]

/-- TURN: what comes next is the element, whole, and nothing of what is past it. -/
theorem nextElement_text {tail : Text} (htail : predefinedLength (e.ai.take 2) = none → tail = [] ∨ ∃ rest, tail = GS :: rest) :
    nextElement (e.text ++ tail) = some (e.ai.take 2, e.text) := by
  have hdigits : (e.ai.take 2).all Char.isDigit = true :=
    List.all_eq_true.mpr fun c hc => List.all_eq_true.mp e.ai_digits c (List.mem_of_mem_take hc)
  rw [nextElement, take_two]
  simp only [Option.filter_some, hdigits, if_true, Option.bind_eq_bind, Option.bind_some]
  cases hlen : predefinedLength (e.ai.take 2) with
  | none =>
    have hfree : ∀ c ∈ e.text, (decide (c ≠ GS)) = true := by
      intro c hc
      refine decide_eq_true ?_
      rcases List.mem_append.mp hc with hc | hc
      · exact (e.digit_of_mem_ai hc).separator
      · exact fun heq => e.free hlen (heq ▸ hc)
    have hstop : tail.takeWhile (· ≠ GS) = [] := by
      rcases htail hlen with rfl | ⟨rest, rfl⟩
      · rfl
      · exact List.takeWhile_cons_of_neg (by simp)
    simp only
    rw [List.takeWhile_append_of_pos hfree, hstop, List.append_nil]
  | some len =>
    obtain ⟨hvalue, hlength⟩ := e.fixed len hlen
    have hall : e.text.all Char.isDigit = true := by rw [Element.text, List.all_append, e.ai_digits, hvalue, Bool.and_self]
    have htext : e.text.length = len := by rw [Element.text, List.length_append, hlength]
    have hsplit : splitAtByte len (e.text ++ tail) = some (e.text, tail) :=
      htext ▸ splitAtByte_append fun c hc => (digitChar (List.all_eq_true.mp hall c hc)).byte
    dsimp only
    rw [hsplit, Option.bind_some]
    exact if_pos hall

/-- A value is kept under its AI, whichever two digits it starts with. -/
theorem set_element (fields : Fields) (e : Element) :
    fields.set (e.ai.take 2) (e.text.drop 2) = fields.set e.ai e.value := by
  by_cases hread : e.ai.take 2 ∈ [['0', '1'], ['1', '7'], ['1', '5']]
  · have hlen := e.whole hread
    rw [List.take_of_length_le hlen.le, Element.text, ← hlen, List.drop_left]
  · have hshort : ∀ ai ∈ [['0', '1'], ['1', '7'], ['1', '5']], e.ai.take 2 ≠ ai ∧ e.ai ≠ ai := by
      intro ai hai
      refine ⟨fun h => hread (h ▸ hai), fun h => hread ?_⟩
      have hlen : ai.length = 2 := by
        have hall : ∀ ai ∈ [['0', '1'], ['1', '7'], ['1', '5']], ai.length = 2 := by decide
        exact hall ai hai
      rw [h, List.take_of_length_le hlen.le]
      exact hai
    have h01 := hshort ['0', '1'] (by simp)
    have h17 := hshort ['1', '7'] (by simp)
    have h15 := hshort ['1', '5'] (by simp)
    simp only [Fields.set, h01, h17, h15, if_false]

theorem dropWhile_separators (n : ℕ) {s : Text} (h : ∀ c ∈ s.head?, c ≠ GS) :
    (List.replicate n GS ++ s).dropWhile (· = GS) = s := by
  rw [List.dropWhile_append_of_pos fun c hc => decide_eq_true (List.eq_of_mem_replicate hc)]
  cases s with
  | nil => rfl
  | cons c s => exact List.dropWhile_cons_of_neg (by simpa using h c rfl)

theorem head_encode (h : es ≠ []) : ∃ c rest, encode es = c :: rest ∧ DigitChar c := by
  cases es with
  | nil => exact absurd rfl h
  | cons e es =>
    obtain ⟨c, ai, hai⟩ := List.exists_cons_of_ne_nil e.ai_ne_nil
    rw [encode_cons, Element.text, hai]
    exact ⟨c, _, rfl, e.digit_of_mem_ai (by rw [hai]; exact List.mem_cons_self)⟩

/-- RUN: the loop keeps the value of each element under its AI. -/
theorem elements_encode {fuel n : ℕ} (hfuel : (List.replicate n GS ++ encode es).length < fuel) :
    elements fuel fields (List.replicate n GS ++ encode es) =
      some (es.foldl (fun fields e => fields.set e.ai e.value) fields) := by
  induction es generalizing fuel n fields with
  | nil =>
    cases fuel with
    | zero => exact absurd hfuel (Nat.not_lt_zero _)
    | succ fuel => rw [elements, dropWhile_separators n (by simp [encode])]; rfl
  | cons e es ih =>
    cases fuel with
    | zero => exact absurd hfuel (Nat.not_lt_zero _)
    | succ fuel =>
      obtain ⟨c, rest, hhead, hc⟩ := head_encode (List.cons_ne_nil e es)
      have hne : encode (e :: es) ≠ [] := by rw [hhead]; exact List.cons_ne_nil c rest
      have hsep : ∃ m, (if es = [] then [] else e.separator) = List.replicate m GS := by
        split
        · exact ⟨0, rfl⟩
        · rw [Element.separator]
          split
          · exact ⟨1, rfl⟩
          · exact ⟨0, rfl⟩
      have hnext : nextElement (encode (e :: es)) = some (e.ai.take 2, e.text) := by
        rw [encode_cons]
        refine nextElement_text fun hvar => ?_
        by_cases hlast : es = []
        · rw [if_pos hlast, hlast]
          exact .inl rfl
        · rw [if_neg hlast, Element.separator, if_pos hvar]
          exact .inr ⟨_, rfl⟩
      rw [elements, dropWhile_separators n (by rw [hhead]; simpa using hc.separator)]
      rw [if_neg hne, hnext]
      dsimp only
      obtain ⟨m, hm⟩ := hsep
      have hrest : (encode (e :: es)).drop e.text.length = List.replicate m GS ++ encode es := by
        rw [encode_cons, List.drop_left, hm]
      rw [hrest, set_element, List.foldl_cons]
      refine ih ?_
      have hshort : 0 < e.text.length := by
        rw [Element.text, List.length_append]
        have := e.ai_length.1
        omega
      rw [List.length_append, encode_cons, hm, List.length_append] at hfuel
      omega

/-! ### Whitespace at the end -/

theorem rdropWhile_append {p : Char → Bool} {a b : Text} (h : b.rdropWhile p ≠ []) :
    (a ++ b).rdropWhile p = a ++ b.rdropWhile p := by
  have hne : (b.reverse.dropWhile p).isEmpty = false := by
    rw [List.isEmpty_eq_false_iff]
    intro hnil
    exact h (List.reverse_eq_nil_iff.mpr hnil)
  rw [List.rdropWhile, List.reverse_append, List.dropWhile_append, hne, if_neg Bool.false_ne_true, List.reverse_append,
    List.reverse_reverse, List.rdropWhile]

/-- An element whose value loses the whitespace at its end, if it has any. -/
def Element.trimmed (e : Element) : Element :=
  { e with
    value := e.value.rdropWhile isWhitespace
    fixed := fun len hlen => by
      obtain ⟨hdigits, hlength⟩ := e.fixed len hlen
      have hkeep : e.value.rdropWhile isWhitespace = e.value := List.rdropWhile_eq_self_iff.mpr fun hne => by
        rw [(digitChar (List.all_eq_true.mp hdigits _ (List.getLast_mem hne))).space]
        exact Bool.false_ne_true
      rw [hkeep]
      exact ⟨hdigits, hlength⟩
    free := fun hlen hmem => e.free hlen (List.IsPrefix.subset (List.rdropWhile_prefix _ _) hmem) }

theorem text_trimmed (e : Element) : e.text.rdropWhile isWhitespace = e.trimmed.text := by
  by_cases hvalue : e.value.rdropWhile isWhitespace = []
  · have hall := List.rdropWhile_eq_nil_iff.mp hvalue
    have hai : e.ai.rdropWhile isWhitespace = e.ai := List.rdropWhile_eq_self_iff.mpr fun hne => by
      rw [(e.digit_of_mem_ai (List.getLast_mem hne)).space]
      exact Bool.false_ne_true
    have htext : e.trimmed.text = e.ai := by
      show e.ai ++ e.value.rdropWhile isWhitespace = e.ai
      rw [hvalue, List.append_nil]
    rw [htext, Element.text, List.rdropWhile, List.reverse_append,
      List.dropWhile_append_of_pos fun c hc => hall c (List.mem_reverse.mp hc)]
    exact hai
  · rw [Element.text, rdropWhile_append hvalue]
    rfl

/-- The elements, the last one trimmed. -/
def trimLast : List Element → List Element
  | [] => []
  | [e] => [e.trimmed]
  | e :: f :: es => e :: trimLast (f :: es)

theorem trimLast_ne_nil (h : es ≠ []) : trimLast es ≠ [] := by
  rcases es with _ | ⟨e, _ | ⟨f, es⟩⟩
  · exact absurd rfl h
  · exact List.cons_ne_nil _ _
  · exact List.cons_ne_nil _ _

theorem rdropWhile_encode : (encode es).rdropWhile isWhitespace = encode (trimLast es) := by
  induction es with
  | nil => rfl
  | cons e es ih =>
    cases es with
    | nil => exact text_trimmed e
    | cons f es =>
      obtain ⟨c, rest, hhead, -⟩ := head_encode (trimLast_ne_nil (List.cons_ne_nil f es))
      have hne : (encode (f :: es)).rdropWhile isWhitespace ≠ [] := by
        rw [ih, hhead]
        exact List.cons_ne_nil c rest
      rw [encode, rdropWhile_append hne, ih, trimLast, encode_cons, if_neg (trimLast_ne_nil (List.cons_ne_nil f es)),
        List.append_assoc]

/-- The values read are not touched: they are digits. -/
theorem first_trimLast {ai : Text} (hai : predefinedLength ai ≠ none) (hlen : ai.length = 2) :
    first ai (trimLast es) = first ai es := by
  have htrim : ∀ e : Element, e.ai = ai → e.trimmed.value = e.value := by
    rintro e rfl
    obtain ⟨len, hlen'⟩ := Option.ne_none_iff_exists'.mp hai
    rw [← List.take_of_length_le hlen.le] at hlen'
    exact List.rdropWhile_eq_self_iff.mpr fun hne => by
      rw [(digitChar (List.all_eq_true.mp (e.fixed len hlen').1 _ (List.getLast_mem hne))).space]
      exact Bool.false_ne_true
  induction es with
  | nil => rfl
  | cons e es ih =>
    cases es with
    | nil =>
      by_cases he : e.ai = ai
      · have he' : e.trimmed.ai = ai := he
        simp [first, trimLast, he, he', htrim e he]
      · have he' : e.trimmed.ai ≠ ai := he
        simp [first, trimLast, he, he']
    | cons f es =>
      by_cases he : e.ai = ai
      · simp [first, trimLast, he]
      · have hcons : ∀ l, first ai (e :: l) = first ai l := fun l => by
          rw [first, List.find?_cons_of_neg (by simpa using he), first]
        rw [trimLast, hcons, hcons, ih]

/-! ### The reader -/

theorem foldl_set : es.foldl (fun fields e => fields.set e.ai e.value) fields =
    ⟨fields.gtin <|> first ['0', '1'] es, fields.expiry <|> first ['1', '7'] es, fields.bestBefore <|> first ['1', '5'] es⟩ := by
  induction es generalizing fields with
  | nil => simp [first]
  | cons e es ih =>
    obtain ⟨gtin, expiry, bestBefore⟩ := fields
    rw [List.foldl_cons, ih]
    by_cases h01 : e.ai = ['0', '1']
    · cases gtin <;> simp [Fields.set, first, h01]
    · by_cases h17 : e.ai = ['1', '7']
      · cases expiry <;> simp [Fields.set, first, h17]
      · by_cases h15 : e.ai = ['1', '5']
        · cases bestBefore <;> simp [Fields.set, first, h15]
        · simp [Fields.set, first, h01, h17, h15]

/-- The text of a code: an identifier it may have, any number of separators, the elements. -/
def codeText (symbology : Option Symbology) (n : ℕ) (es : List Element) : Text :=
  (symbology.elim [] Symbology.text) ++ (List.replicate n GS ++ encode es)

theorem opens_GS : Opens GS := { space := by decide, scheme := by decide, bracket := by decide }

/-- Without an identifier, a code starts with a separator or a digit. -/
theorem opens_codeText {c : Char} (h : c ∈ (List.replicate n GS ++ encode es).head?) : Opens c := by
  cases n with
  | zero =>
    cases es with
    | nil => exact absurd h (by simp [encode])
    | cons e es =>
      obtain ⟨d, rest, hhead, hd⟩ := head_encode (List.cons_ne_nil e es)
      rw [List.replicate_zero, List.nil_append, hhead, List.head?_cons, Option.mem_some_iff] at h
      exact h ▸ hd.toOpens
  | succ n =>
    rw [List.replicate_succ, List.cons_append, List.head?_cons, Option.mem_some_iff] at h
    exact h ▸ opens_GS

/-- The first character of a code is no whitespace, nor a letter of a URL's scheme. -/
theorem opens_or_bracket {symbology : Option Symbology} {c : Char} (h : c ∈ (codeText symbology n es).head?) :
    isWhitespace c = false ∧ c.toLower ∉ https := by
  cases symbology with
  | none =>
    have hopens := opens_codeText h
    exact ⟨hopens.space, hopens.scheme⟩
  | some s =>
    obtain rfl : ']' = c := Option.mem_some_iff.mp h
    exact ⟨by decide, by decide⟩

theorem elementString_codeText (symbology : Option Symbology) (n : ℕ) (es : List Element) :
    elementString (codeText symbology n es) =
      some ⟨first ['0', '1'] es, first ['1', '7'] es, first ['1', '5'] es⟩ := by
  have hread : elements ((List.replicate n GS ++ encode es).length + 1) Fields.default (List.replicate n GS ++ encode es) =
      some ⟨first ['0', '1'] es, first ['1', '7'] es, first ['1', '5'] es⟩ := by
    rw [elements_encode (Nat.lt_succ_self _), foldl_set]
    simp [Fields.default]
  cases symbology with
  | none =>
    have hbracket : stripPrefix [']'] (List.replicate n GS ++ encode es) = none := by
      refine stripPrefix_eq_none fun hp => ?_
      obtain ⟨rest, heq⟩ := hp
      have hhead : ']' ∈ (List.replicate n GS ++ encode es).head? := by
        rw [← heq]
        rfl
      exact (opens_codeText hhead).bracket rfl
    rw [elementString, codeText, Option.elim_none, List.nil_append, hbracket]
    exact hread
  | some s =>
    have htext : codeText (some s) n es = [']'] ++ ([s.code, s.modifier] ++ (List.replicate n GS ++ encode es)) := rfl
    have hcut : splitAtByte 2 ([s.code, s.modifier] ++ (List.replicate n GS ++ encode es)) =
        some ([s.code, s.modifier], List.replicate n GS ++ encode es) :=
      splitAtByte_append (a := [s.code, s.modifier]) fun c hc => byte_of_visible (s.visible c hc)
    rw [elementString, htext, stripPrefix_append]
    dsimp only
    rw [hcut]
    exact hread

/-- What stands before the elements has no whitespace, so that none is taken from it. -/
theorem trim_codeText (symbology : Option Symbology) (n : ℕ) (es : List Element) :
    trim (codeText symbology n es) = codeText symbology n (trimLast es) := by
  have hfront : ∀ c ∈ symbology.elim [] Symbology.text ++ List.replicate n GS, isWhitespace c = false := by
    intro c hc
    rcases List.mem_append.mp hc with hc | hc
    · cases symbology with
      | none => exact absurd hc (by simp)
      | some s =>
        rw [Option.elim_some, Symbology.text, List.mem_cons] at hc
        rcases hc with rfl | hc
        · decide
        · exact space_of_visible (s.visible c hc)
    · rw [List.eq_of_mem_replicate hc]
      exact opens_GS.space
  have hstart : (codeText symbology n es).dropWhile isWhitespace = codeText symbology n es := by
    rw [List.dropWhile_eq_self_iff]
    intro hpos
    have hhead : (codeText symbology n es)[0] ∈ (codeText symbology n es).head? :=
      List.head?_eq_getElem? .. ▸ List.getElem?_eq_getElem hpos
    rw [(opens_or_bracket hhead).1]
    exact Bool.false_ne_true
  rw [trim, hstart, codeText, codeText, ← List.append_assoc, ← List.append_assoc]
  by_cases hes : es = []
  · subst hes
    rw [trimLast, encode, List.append_nil, List.rdropWhile_eq_self_iff]
    intro hne
    rw [hfront _ (List.getLast_mem hne)]
    exact Bool.false_ne_true
  · obtain ⟨c, rest, hhead, -⟩ := head_encode (trimLast_ne_nil hes)
    rw [rdropWhile_append, rdropWhile_encode]
    rw [rdropWhile_encode, hhead]
    exact List.cons_ne_nil c rest

/-- A code is no URL: it does not start with a letter of a scheme. -/
theorem isUrl_codeText (symbology : Option Symbology) (n : ℕ) (es : List Element) :
    isUrl (codeText symbology n es) = false := by
  rw [← Bool.not_eq_true, isUrl_iff]
  rintro ⟨scheme, rest, hcut, hhttp⟩
  have htext := eq_of_splitOnce hcut
  cases scheme with
  | nil =>
    have hempty : ¬(eqIgnoreAsciiCase [] http || eqIgnoreAsciiCase [] https) = true := by decide
    exact absurd hhttp hempty
  | cons c scheme =>
    have hhead : c ∈ (codeText symbology n es).head? := by rw [htext]; rfl
    exact hhttp.notMem (opens_or_bracket hhead).2 List.mem_cons_self

/-- The expiry before the date of minimum durability. -/
theorem findSome?_dates {α β : Type} (expiry bestBefore : Option α) (f : α → Option β) :
    [expiry, bestBefore].reduceOption.findSome? f = (expiry.bind f <|> bestBefore.bind f) := by
  cases expiry with
  | none =>
    cases bestBefore with
    | none => rfl
    | some b => cases hb : f b <;> simp [List.reduceOption, hb]
  | some a =>
    cases bestBefore with
    | none => cases ha : f a <;> simp [List.reduceOption, ha]
    | some b => cases ha : f a <;> cases hb : f b <;> simp [List.reduceOption, ha, hb]

/-- ELEMENT STRING: the first code and the first dates encoded are read, the dates in the hundred years around today's. -/
theorem read_codeText (symbology : Option Symbology) (n : ℕ) (es : List Element) (today : NaiveDate) :
    read (codeText symbology n es) today = ((first ['0', '1'] es).bind gtinToCode).map (fun code =>
      ⟨code, ((first ['1', '7'] es).bind fun date => gs1Date date today) <|>
        (first ['1', '5'] es).bind fun date => gs1Date date today⟩) ∧
    ∀ yymmdd date, gs1Date yymmdd today = some date ↔
      (yymmdd.length = 6 ∧ yymmdd.all Char.isDigit = true) ∧ Named yymmdd today date ∧
        ¬(number yymmdd 4 = 0 ∧ date.month = 12 ∧ date.year = 262142) := by
  refine ⟨?_, fun yymmdd date => gs1Date_eq_some⟩
  have hfirst : ∀ ai ∈ [['0', '1'], ['1', '7'], ['1', '5']], first ai (trimLast es) = first ai es := by
    intro ai hai
    have hall : ∀ ai ∈ [['0', '1'], ['1', '7'], ['1', '5']], predefinedLength ai ≠ none ∧ ai.length = 2 := by decide
    exact first_trimLast (hall ai hai).1 (hall ai hai).2
  rw [read, trim_codeText]
  dsimp only
  rw [isUrl_codeText, if_neg Bool.false_ne_true, elementString_codeText, hfirst _ (by simp), hfirst _ (by simp),
    hfirst _ (by simp)]
  simp only [Option.bind_eq_bind, Option.bind_some, Option.pure_def]
  cases first ['0', '1'] es with
  | none => rfl
  | some gtin =>
    rw [Option.bind_some, Option.bind_some]
    cases gtinToCode gtin with
    | none => rfl
    | some code =>
      rw [findSome?_dates]
      rfl

/-! ### The last December -/

/-- An element of an AI read here. -/
def readElement (ai value : Text) (hai : ai ∈ [['0', '1'], ['1', '7'], ['1', '5']])
    (hvalue : predefinedLength ai = some (2 + value.length) ∧ value.all Char.isDigit = true) : Element :=
  have hall : ∀ ai ∈ [['0', '1'], ['1', '7'], ['1', '5']], ai.all Char.isDigit = true ∧ ai.length = 2 := by decide
  have htake : ai.take 2 = ai := List.take_of_length_le (hall ai hai).2.le
  { ai := ai
    value := value
    ai_digits := (hall ai hai).1
    ai_length := by rw [(hall ai hai).2]; decide
    whole := fun _ => (hall ai hai).2
    fixed := fun len hlen => by
      rw [htake, hvalue.1, Option.some.injEq] at hlen
      exact ⟨hvalue.2, by rw [(hall ai hai).2, hlen]⟩
    free := fun hnone => by
      rw [htake, hvalue.1] at hnone
      exact absurd hnone (by simp) }

/-- A product that keeps to the last day of December 262142, and is at its best until the month's first. -/
def lastDecember : List Element :=
  [readElement ['0', '1'] "03017620422003".toList (by decide) (by decide),
    readElement ['1', '7'] "421200".toList (by decide) (by decide),
    readElement ['1', '5'] "421201".toList (by decide) (by decide)]

/-- A day 00 of the last December there is: its last day is a date, and the code is read as if it had none. -/
theorem read_codeText_lastDecember :
    Named "421200".toList ⟨262100, 1, 1, by decide⟩ ⟨262142, 12, 31, by decide⟩ ∧
    read (codeText none 0 lastDecember) ⟨262100, 1, 1, by decide⟩ =
      some ⟨"3017620422003".toList, some ⟨262142, 12, 1, by decide⟩⟩ := by
  constructor
  · exact { year := by decide, behind := by decide, ahead := by decide, month := by decide, day := by decide }
  · decide +kernel

end Home.Stocks
