import ManageOurHome.Recipes.IngredientLine

/-! @src apps/api/src/recipes/ingredient_line.rs | layer:proof | family:recipe import

    Any line is read: no slice of it falls inside of a character. Its name is a part of it; without a quantity it is the
    whole of it. A quantity is a number that is written there, to the thousandth, and a unit is the longest spelling that
    stands after it, up to a space, a comma, a semicolon or the end.

        1 1/2 tasse de farine   1 1/2 | tasse | farine          200 lardons   200 | | lardons -/

namespace Home.Recipes.IngredientLine

open HttpGuard (splitOnce)
open Net (value)
open Utf8 (size dropBytes takeBytes)

variable (lowercase : Char → Text)

/-- What follows `pat`, compared without regard to case. -/
def without : Text → Text → Option Text
  | [], s => some s
  | _ :: _, [] => none
  | expected :: pat, c :: s => if lowercase c = lowercase expected then without pat s else none

variable {lowercase} {alphabetic alphanumeric : Char → Bool} {line text pat rest after s t : Text} {v w : F64} {c : Char}

/-! ### No slice panics -/

variable (lowercase) in
theorem endOf_eq (pat s : Text) (i : ℕ) :
    (without lowercase pat s = none → endOf lowercase pat (charIndices i s) i = none) ∧
      ∀ rest, without lowercase pat s = some rest →
        ∃ u, s = u ++ rest ∧ endOf lowercase pat (charIndices i s) i = some (i + size u) := by
  induction pat generalizing s i with
  | nil =>
    refine ⟨(by intro h; cases h), fun rest h => ⟨[], ?_, ?_⟩⟩
    · rw [Option.some.inj h]
      rfl
    · cases s <;> rfl
  | cons expected pat ih =>
    cases s with
    | nil => exact ⟨fun _ => rfl, fun rest h => by cases h⟩
    | cons c s =>
      rw [without, charIndices, endOf]
      split
      · obtain ⟨hnone, hsome⟩ := ih s (i + c.utf8Size)
        refine ⟨hnone, fun rest h => ?_⟩
        obtain ⟨u, hu, hend⟩ := hsome rest h
        exact ⟨c :: u, by rw [hu, List.cons_append], by rw [hend, Utf8.size_cons, Nat.add_assoc]⟩
      · exact ⟨fun _ => rfl, fun rest h => by cases h⟩

theorem stripPrefixCi_eq (text pat : Text) : stripPrefixCi lowercase text pat = some (without lowercase pat text) := by
  obtain ⟨hnone, hsome⟩ := endOf_eq lowercase pat text 0
  rw [stripPrefixCi]
  rcases h : without lowercase pat text with - | rest
  · rw [hnone h]
  · obtain ⟨u, hu, hend⟩ := hsome rest h
    rw [hend, Nat.zero_add, hu]
    dsimp only
    rw [Utf8.dropBytes_append, Option.map_some]

theorem without_suffix (h : without lowercase pat text = some rest) : rest <:+ text := by
  obtain ⟨u, hu, -⟩ := (endOf_eq lowercase pat text 0).2 rest h
  exact ⟨u, hu.symm⟩

theorem firstPrefixCi_eq (text : Text) (pats : List Text) :
    firstPrefixCi lowercase text pats = some (pats.findSome? fun pat => without lowercase pat text) := by
  induction pats with
  | nil => rfl
  | cons pat pats ih =>
    rw [firstPrefixCi, stripPrefixCi_eq, Option.bind_some, List.findSome?_cons]
    cases without lowercase pat text with
    | none => exact ih
    | some after => rfl

theorem anyPrefixCi_eq (text : Text) (accept : Text → Bool) (pats : List Text) :
    anyPrefixCi lowercase text accept pats = some (pats.any fun pat => (without lowercase pat text).any accept) := by
  induction pats with
  | nil => rfl
  | cons pat pats ih =>
    rw [anyPrefixCi, stripPrefixCi_eq, Option.bind_some, List.any_cons, ih]
    cases (without lowercase pat text).any accept <;> rfl

theorem vulgar_eq (text : Text) :
    vulgar text = some (text.head?.bind fun c => (fraction c).map fun value => (value, text.tail)) := by
  cases text with
  | nil => rfl
  | cons c rest =>
    rw [vulgar]
    dsimp only [List.head?_cons, Option.bind_some, List.tail_cons]
    have hdrop : dropBytes (c :: rest) c.utf8Size = some rest := by
      have happend := Utf8.dropBytes_append [c] rest
      rwa [Utf8.size_cons, Utf8.size_nil, Nat.add_zero] at happend
    cases fraction c with
    | none => rfl
    | some v => rw [hdrop]; rfl

theorem cons_of_vulgar
    (h : (text.head?.bind fun c => (fraction c).map fun value => (value, text.tail)) = some (v, rest)) :
    ∃ c, fraction c = some v ∧ text = c :: rest := by
  obtain ⟨c, hc, hvalue⟩ := Option.bind_eq_some_iff.mp h
  obtain ⟨v', hv, heq⟩ := Option.map_eq_some_iff.mp hvalue
  obtain ⟨rfl, rfl⟩ := Prod.mk.inj heq
  exact ⟨c, hv, (List.cons_head?_tail hc).symm⟩

/-- The double next to what digits write. -/
def double (ds : Text) : F64 := .ofRat (value 10 ds)

theorem parseF64_digits {ds : Text} (hne : ds ≠ []) (h : ∀ c ∈ ds, c.isDigit = true) :
    parseF64 ds = some (double ds) := by
  obtain ⟨d, rest, rfl⟩ := List.exists_cons_of_ne_nil hne
  rw [parseF64_digit (h d List.mem_cons_self), (parseMagnitude_decimal (parseDecimal_digits hne h)).1]
  rfl

theorem digits_eq (text : Text) : digits text =
    some (if text.takeWhile Char.isDigit = [] then none
      else some (double (text.takeWhile Char.isDigit), text.dropWhile Char.isDigit)) := by
  have hsplit : text.takeWhile Char.isDigit ++ text.dropWhile Char.isDigit = text := List.takeWhile_append_dropWhile
  have hstop : (Utf8.find (fun c => !c.isDigit) text).getD (size text) = size (text.takeWhile Char.isDigit) := by
    rw [Utf8.find]
    split
    · simp
    · rename_i hall
      have hdigits : ∀ c ∈ text, c.isDigit = true := by
        intro c hc
        by_contra h
        exact hall (List.any_eq_true.mpr ⟨c, hc, by simpa using h⟩)
      rw [List.takeWhile_eq_self_iff.mpr hdigits]
      rfl
  rw [digits, hstop]
  by_cases hnil : text.takeWhile Char.isDigit = []
  · rw [if_pos hnil, hnil, if_pos Utf8.size_nil]
  · have htake : takeBytes text (size (text.takeWhile Char.isDigit)) = some (text.takeWhile Char.isDigit) := by
      have happend := Utf8.takeBytes_append (text.takeWhile Char.isDigit) (text.dropWhile Char.isDigit)
      rwa [hsplit] at happend
    have hdrop : dropBytes text (size (text.takeWhile Char.isDigit)) = some (text.dropWhile Char.isDigit) := by
      have happend := Utf8.dropBytes_append (text.takeWhile Char.isDigit) (text.dropWhile Char.isDigit)
      rwa [hsplit] at happend
    rw [if_neg hnil, if_neg (Utf8.size_pos hnil).ne', htake, hdrop, Option.bind_some, Option.map_some,
      parseF64_digits hnil fun c hc => List.mem_takeWhile_imp hc]
    rfl

/-- What is read, if anything is, satisfies `P`, and no slice panics. -/
def Reads {α : Type} (found : Option (Option α)) (P : α → Prop) : Prop := ∃ r, found = some r ∧ ∀ a ∈ r, P a

theorem Reads.none {α : Type} {P : α → Prop} : Reads (some none) P := ⟨_, rfl, fun _ h => by cases h⟩

theorem Reads.some {α : Type} {P : α → Prop} {a : α} (h : P a) : Reads (some (some a)) P :=
  ⟨_, rfl, fun _ ha => Option.some.inj ha ▸ h⟩

theorem Reads.filter {α : Type} {P : α → Prop} {found : Option (Option α)} (h : Reads found P) (p : α → Bool) :
    Reads (found.map fun r => r.filter p) fun a => P a ∧ p a = true := by
  obtain ⟨r, rfl, hr⟩ := h
  refine ⟨_, rfl, fun a ha => ?_⟩
  obtain ⟨hmem, hp⟩ := Option.filter_eq_some_iff.mp ha
  exact ⟨hr a hmem, hp⟩

theorem Reads.imp {α : Type} {P Q : α → Prop} {found : Option (Option α)} (h : Reads found P) (hpq : ∀ a, P a → Q a) :
    Reads found Q := by
  obtain ⟨r, hr, hspec⟩ := h
  exact ⟨r, hr, fun a ha => hpq a (hspec a ha)⟩

/-- One digit or more. -/
def Digits (ds : Text) : Prop := ds ≠ [] ∧ ∀ c ∈ ds, c.isDigit = true

theorem digits_append {ds : Text} (h : Digits ds) (hrest : rest.head?.any Char.isDigit = false) :
    digits (ds ++ rest) = some (some (double ds, rest)) := by
  have htail : rest.takeWhile Char.isDigit = [] ∧ rest.dropWhile Char.isDigit = rest := by
    cases rest with
    | nil => exact ⟨rfl, rfl⟩
    | cons c rest =>
      have hc : ¬c.isDigit = true := by simpa using hrest
      exact ⟨List.takeWhile_cons_of_neg hc, List.dropWhile_cons_of_neg hc⟩
  rw [digits_eq, List.takeWhile_append_of_pos h.2, List.dropWhile_append_of_pos h.2, htail.1, htail.2, List.append_nil,
    if_neg h.1]

theorem digits_reads (text : Text) : Reads (digits text) fun found => ∃ ds, Digits ds ∧ text = ds ++ found.2 ∧
    found.1 = double ds := by
  rw [digits_eq]
  split
  · exact .none
  · rename_i hne
    exact .some ⟨_, ⟨hne, fun c hc => List.mem_takeWhile_imp hc⟩, List.takeWhile_append_dropWhile.symm, rfl⟩

/-! ### What is written -/

/-- Nothing that follows a whole number makes it more than that. -/
structure Alone (rest : Text) : Prop where
  noDenominator : ∀ after, rest ≠ '/' :: after
  noDecimal : ∀ c d after, c = '.' ∨ c = ',' → d.isDigit = true → rest ≠ c :: d :: after
  noVulgar : ∀ c after, trimStart rest = c :: after → fraction c = none
  noFraction : ∀ es after, Digits es → trimStart rest = es ++ '/' :: after → trimStart rest = rest

/-- A number that a text starts with, what it is worth, and what follows it. -/
inductive Written (lowercase : Char → Text) : Text → F64 → Text → Prop
  | one {pat text rest : Text} : pat = "une".toList ∨ pat = "un".toList → without lowercase pat text = some rest →
      Written lowercase text (.finite 1) rest
  | vulgar {c : Char} {v : F64} (rest : Text) : fraction c = some v → Written lowercase (c :: rest) v rest
  | whole {ds rest : Text} : Digits ds → Alone rest → Written lowercase (ds ++ rest) (double ds) rest
  | fraction {ds es : Text} (rest : Text) : Digits ds → Digits es → double es ≠ .finite 0 →
      Written lowercase (ds ++ '/' :: (es ++ rest)) ((double ds).div (double es)) rest
  | decimal {c : Char} {ds es : Text} (rest : Text) : c = '.' ∨ c = ',' → Digits ds → Digits es →
      Written lowercase (ds ++ c :: (es ++ rest)) (.ofRat (value 10 (ds ++ es) / 10 ^ es.length)) rest
  | wholeVulgar {ds s rest : Text} {c : Char} {v : F64} : Digits ds → fraction c = some v → trimStart s = c :: rest →
      Written lowercase (ds ++ s) ((double ds).add v) rest
  | wholeFraction {ds es fs s rest : Text} : Digits ds → Digits es → Digits fs → double fs ≠ .finite 0 →
      trimStart s = es ++ '/' :: (fs ++ rest) → trimStart s ≠ s →
      Written lowercase (ds ++ s) ((double ds).add ((double es).div (double fs))) rest

theorem divided_reads (whole : F64 → F64) (text : Text) : Reads (divided whole text) fun found =>
    ∃ es, Digits es ∧ double es ≠ .finite 0 ∧ text = es ++ found.2 ∧ found.1 = whole (double es) := by
  obtain ⟨r, hr, hspec⟩ := digits_reads text
  rw [divided, hr, Option.map_some]
  rcases r with - | ⟨denominator, rest⟩
  · exact .none
  · obtain ⟨es, hes, htext, hvalue⟩ := hspec _ rfl
    dsimp only at htext hvalue
    dsimp only [Option.bind_some]
    split
    · rename_i hne
      exact .some ⟨es, hes, hvalue ▸ hne, htext, by rw [hvalue]⟩
    · exact .none

theorem stripOne_eq_some {chars : List Char} : stripOne chars text = some rest ↔ ∃ c ∈ chars, text = c :: rest := by
  cases text with
  | nil => simp [stripOne]
  | cons c s =>
    rw [stripOne]
    split
    · rename_i hc
      constructor
      · intro h
        exact ⟨c, hc, by rw [Option.some.inj h]⟩
      · rintro ⟨d, -, h⟩
        rw [(List.cons.inj h).2]
    · rename_i hc
      refine iff_of_false (by simp) ?_
      rintro ⟨d, hd, h⟩
      exact hc ((List.cons.inj h).1 ▸ hd)

theorem map_digits {ds : Text} (h : ∀ c ∈ ds, c.isDigit = true) :
    (ds.map fun c => if c = ',' then '.' else c) = ds := by
  refine (List.map_congr_left fun c hc => if_neg ?_).trans (List.map_id ds)
  rintro rfl
  exact absurd (h _ hc) (by decide)

/-- A comma is read as a point. -/
theorem parseF64_comma {ds es : Text} (hc : c ∈ ['.', ',']) (hds : Digits ds) (hes : Digits es) :
    parseF64 ((ds ++ c :: es).map fun c => if c = ',' then '.' else c) =
      some (.ofRat (value 10 (ds ++ es) / 10 ^ es.length)) := by
  have hpoint : (if c = ',' then '.' else c) = '.' := by
    rcases List.mem_pair.mp hc with rfl | rfl <;> rfl
  have hdecimal := parseDecimal_point hds.1 hds.2 hes.2
  rw [List.map_append, List.map_cons, map_digits hds.2, map_digits hes.2, hpoint]
  obtain ⟨d, ds, rfl⟩ := List.exists_cons_of_ne_nil hds.1
  rw [List.cons_append, parseF64_digit (hds.2 d List.mem_cons_self)]
  exact (parseMagnitude_decimal hdecimal).1

variable (lowercase rest) in
/-- No decimals, or those that are written. -/
theorem decimal_reads {ds : Text} (hds : Digits ds) : ∃ r, decimal (ds ++ rest) rest = some r ∧
    (r = none → ∀ c d after, c = '.' ∨ c = ',' → d.isDigit = true → rest ≠ c :: d :: after) ∧
    ∀ found ∈ r, ∀ a ∈ found, Written lowercase (ds ++ rest) a.1 a.2 := by
  rw [decimal]
  rcases h : stripOne ['.', ','] rest with - | decimals
  · refine ⟨_, rfl, ?_, fun _ h => by cases h⟩
    rintro - c d after hc - rfl
    have hsome : stripOne ['.', ','] (c :: d :: after) = some (d :: after) :=
      stripOne_eq_some.mpr ⟨c, by simpa using hc, rfl⟩
    rw [h] at hsome
    cases hsome
  · obtain ⟨c, hc, rfl⟩ := stripOne_eq_some.mp h
    obtain ⟨r, hr, hspec⟩ := digits_reads decimals
    dsimp only
    rw [hr, Option.bind_some]
    rcases r with - | ⟨v, after⟩
    · refine ⟨_, rfl, ?_, fun _ h => by cases h⟩
      rintro - c' d after - hd heq
      obtain ⟨-, rfl⟩ := List.cons.inj heq
      rw [digits_eq, List.takeWhile_cons_of_pos hd] at hr
      cases hr
    · obtain ⟨es, hes, htext, -⟩ := hspec _ rfl
      dsimp only at htext
      subst htext
      have hwhole : ds ++ c :: (es ++ after) = (ds ++ c :: es) ++ after := by simp
      have htake : takeBytes (ds ++ c :: (es ++ after)) (size (ds ++ c :: (es ++ after)) - size after) =
          some (ds ++ c :: es) := by
        rw [hwhole, Utf8.size_append, Nat.add_sub_cancel]
        exact Utf8.takeBytes_append _ _
      dsimp only
      rw [htake, Option.map_some, parseF64_comma hc hds hes, Option.map_some]
      refine ⟨_, rfl, (by intro h; cases h), ?_⟩
      intro found hfound a ha
      obtain rfl := Option.some.inj hfound
      obtain rfl := Option.some.inj ha
      exact .decimal after (by simpa using hc) hds hes

theorem ne_cons_of_stripPrefix (h : stripPrefix [c] text = none) (rest : Text) : text ≠ c :: rest := by
  rintro rfl
  have hsome : stripPrefix [c] (c :: rest) = some rest := stripPrefix_append [c] rest
  rw [h] at hsome
  cases hsome

/-- What follows a whole number, but a denominator or decimals, is a fraction or nothing to it. -/
theorem mixed_reads {ds : Text} (hds : Digits ds) (hundivided : ∀ after, rest ≠ '/' :: after)
    (hdecimal : ∀ c d after, c = '.' ∨ c = ',' → d.isDigit = true → rest ≠ c :: d :: after) :
    Reads (mixed (double ds) rest) fun found => Written lowercase (ds ++ rest) found.1 found.2 := by
  rw [mixed, vulgar_eq, Option.bind_some]
  rcases hvulgar : (trimStart rest).head?.bind fun c => (fraction c).map fun value => (value, (trimStart rest).tail) with
    - | ⟨v, after⟩
  · have hnone : ∀ c after, trimStart rest = c :: after → fraction c = none := by
      intro c after heq
      rw [heq, List.head?_cons, Option.bind_some, Option.map_eq_none_iff] at hvulgar
      exact hvulgar
    dsimp only
    split
    · rename_i hspaced
      obtain ⟨r, hr, hspec⟩ := digits_reads (trimStart rest)
      rw [hr, Option.bind_some]
      have hwhole : (∀ es after, Digits es → trimStart rest = es ++ '/' :: after → False) →
          Written lowercase (ds ++ rest) (double ds) rest := by
        intro hno
        exact .whole hds ⟨hundivided, hdecimal, hnone, fun es after hes heq => (hno es after hes heq).elim⟩
      rcases r with - | ⟨numerator, after⟩
      · refine .some (hwhole ?_)
        intro es after hes heq
        rw [heq, digits_append hes (by rfl)] at hr
        cases hr
      · obtain ⟨es, hes, htext, hvalue⟩ := hspec _ rfl
        dsimp only at htext hvalue
        dsimp only
        rcases hslash : stripPrefix ['/'] after with - | denominator
        · refine .some (hwhole ?_)
          intro es' after' hes' heq
          rw [heq, digits_append hes' (by rfl)] at hr
          obtain rfl := (Prod.mk.inj (Option.some.inj (Option.some.inj hr))).2
          exact ne_cons_of_stripPrefix hslash after' rfl
        · have hafter : after = '/' :: denominator := stripPrefix_eq_some.mp hslash
          obtain ⟨r, hr, hspec⟩ := divided_reads
            (fun denominator => (double ds).add (numerator.div denominator)) denominator
          refine ⟨r, hr, fun a ha => ?_⟩
          obtain ⟨fs, hfs, hne, hdenominator, hworth⟩ := hspec a ha
          rw [hworth, hvalue]
          refine .wholeFraction hds hes hfs hne ?_ ?_
          · rw [htext, hafter, hdenominator]
          · intro heq
            rw [heq] at hspaced
            exact lt_irrefl _ hspaced
    · rename_i hspaced
      refine .some (.whole hds ⟨hundivided, hdecimal, hnone, fun es after hes heq => ?_⟩)
      obtain ⟨u, hu⟩ := List.dropWhile_suffix isWhitespace (l := rest)
      rw [trimStart] at hspaced ⊢
      rcases eq_or_ne u [] with rfl | hne
      · exact hu
      · have hpos := Utf8.size_pos hne
        have hsize : size u + size (rest.dropWhile isWhitespace) = size rest := by rw [← Utf8.size_append, hu]
        omega
  · obtain ⟨c, hv, htext⟩ := cons_of_vulgar hvulgar
    exact .some (.wholeVulgar hds hv htext)

theorem number_reads (line : Text) : Reads (number line) fun found => Written lowercase line found.1 found.2 := by
  obtain ⟨r, hr, hspec⟩ := digits_reads line
  rw [number, hr, Option.bind_some]
  rcases r with - | ⟨whole, rest⟩
  · exact .none
  · obtain ⟨ds, hds, rfl, rfl⟩ := hspec _ rfl
    dsimp only
    rcases hslash : stripPrefix ['/'] rest with - | after
    · have hundivided : ∀ after, rest ≠ '/' :: after := ne_cons_of_stripPrefix hslash
      obtain ⟨r, hr, hnone, hsome⟩ := decimal_reads lowercase rest hds
      dsimp only
      rw [hr, Option.bind_some]
      cases r with
      | none => exact mixed_reads hds hundivided (hnone rfl)
      | some found => exact ⟨found, rfl, hsome found rfl⟩
    · obtain rfl : rest = '/' :: after := stripPrefix_eq_some.mp hslash
      obtain ⟨r, hr, hspec⟩ := divided_reads (fun denominator => (double ds).div denominator) after
      refine ⟨r, hr, fun a ha => ?_⟩
      obtain ⟨es, hes, hne, htext, hworth⟩ := hspec a ha
      rw [htext, hworth]
      exact .fraction _ hds hes hne

variable (lowercase alphabetic) in
/-- A quantity ends at a space, a letter or the end. -/
theorem quantity_reads (line : Text) : Reads (quantity lowercase alphabetic line) fun found =>
    Written lowercase line found.1 found.2 ∧ ∀ c ∈ found.2.head?, isWhitespace c = true ∨ alphabetic c = true := by
  rw [quantity, firstPrefixCi_eq, Option.bind_some]
  rcases hone : ["une".toList, "un".toList].findSome? fun pat => without lowercase pat line with - | rest
  · dsimp only
    refine Reads.imp (Reads.filter (P := fun found => Written lowercase line found.1 found.2) ?_ _) ?_
    · rw [vulgar_eq, Option.bind_some]
      rcases hvulgar : line.head?.bind fun c => (fraction c).map fun value => (value, line.tail) with - | ⟨v, rest⟩
      · exact number_reads line
      · obtain ⟨c, hv, rfl⟩ := cons_of_vulgar hvulgar
        exact .some (.vulgar rest hv)
    · rintro ⟨v, rest⟩ ⟨hwritten, hends⟩
      refine ⟨hwritten, fun c hc => ?_⟩
      dsimp only at hc hends
      rw [hc] at hends
      simpa using hends
  · obtain ⟨pat, hpat, hwithout⟩ := List.exists_of_findSome?_eq_some hone
    dsimp only
    split
    · rename_i hspace
      refine .some ⟨.one (by simpa using hpat) hwithout, fun c hc => .inl ?_⟩
      rw [hc] at hspace
      exact hspace
    · exact .none

end Home.Recipes.IngredientLine
