import ManageOurHome.HttpGuard.BaseUrl
import ManageOurHome.Stocks.Gtin

/-! @src apps/web/src/routes/stocks/photo.rs, apps/api/src/stocks/gs1.rs | layer:proof | family:barcodes

    The URLs the web passes on are the Digital Links the API reads. The web cuts the scheme off first, the API the
    fragment and the query: with an http scheme, which none of the three cuts can be in, both scan one path.

        http ://  brand.com/01/05/x/01/96385074  ?17=270131  #top
                           └──── segments ────┘ -/

namespace Home.Stocks

open Home.HttpGuard (splitOnce eqIgnoreAsciiCase http https splitOnce_scheme eq_of_splitOnce)

variable {t scheme rest : Text} {c : Char}

/-! ### Cutting -/

/-- What stands before a character, all of it without one. -/
theorem before_splitOnce (c : Char) (t : Text) : ((splitOnce [c] t).getD (t, [])).1 = t.takeWhile (· ≠ c) := by
  induction t with
  | nil => rfl
  | cons x t ih =>
    rw [splitOnce]
    by_cases hx : x = c
    · subst hx
      simp
    · have hnot : ¬([c] : Text).isPrefixOf (x :: t) = true := by simp [Ne.symm hx]
      have hrest : (x :: t).takeWhile (· ≠ c) = x :: t.takeWhile (· ≠ c) := List.takeWhile_cons_of_pos (decide_eq_true hx)
      rw [if_neg hnot, hrest, ← ih]
      cases splitOnce [c] t <;> rfl

/-- An http scheme. -/
def Http (scheme : Text) : Prop := (eqIgnoreAsciiCase scheme http || eqIgnoreAsciiCase scheme https) = true

/-- No separator is a letter of an http scheme. -/
theorem Http.notMem (h : Http scheme) (hc : c.toLower ∉ https) : c ∉ scheme := by
  intro hmem
  have hlower : c.toLower ∈ asciiLowercase scheme := List.mem_map.mpr ⟨c, hmem, rfl⟩
  rw [Http, Bool.or_eq_true, eqIgnoreAsciiCase, eqIgnoreAsciiCase, decide_eq_true_iff, decide_eq_true_iff] at h
  rcases h with h | h
  · have hhttp : asciiLowercase http = http := rfl
    rw [h, hhttp] at hlower
    exact hc (List.mem_append_left ['s'] hlower)
  · have hhttps : asciiLowercase https = https := rfl
    rw [h, hhttps] at hlower
    exact hc hlower

/-- The part of a URL past its scheme that both scan. -/
def scanned (rest : Text) : Text := rest.takeWhile fun c => c ≠ '?' ∧ c ≠ '#'

theorem takeWhile_scheme (h : Http scheme) (hc : c.toLower ∉ https) (hsep : c ∉ schemeSeparator) (rest : Text) :
    (scheme ++ schemeSeparator ++ rest).takeWhile (· ≠ c) = scheme ++ schemeSeparator ++ rest.takeWhile (· ≠ c) := by
  refine List.takeWhile_append_of_pos fun x hx => ?_
  rcases List.mem_append.mp hx with hx | hx
  · exact decide_eq_true fun heq => h.notMem hc (heq ▸ hx)
  · exact decide_eq_true fun heq => hsep (heq ▸ hx)

/-- With an http scheme, the API cuts the scheme the web does, and what is past it where the web does. -/
theorem path_cut (h : Http scheme) (rest : Text) :
    splitOnce schemeSeparator ((splitOnce ['?'] ((scheme ++ schemeSeparator ++ rest).takeWhile (· ≠ '#'))).getD
      ((scheme ++ schemeSeparator ++ rest).takeWhile (· ≠ '#'), [])).1 = some (scheme, scanned rest) := by
  rw [before_splitOnce, takeWhile_scheme h (by decide) (by decide), takeWhile_scheme h (by decide) (by decide),
    List.takeWhile_takeWhile, schemeSeparator, splitOnce_scheme (h.notMem (by decide)), scanned]
  simp only [ne_eq, Bool.decide_and, decide_eq_true_eq]

/-! ### The pairs -/

theorem photo_isGtin : Photo.isGtin = isGtin := rfl

theorem getElem?_pairs {segments : List Text} {i : ℕ} {a b : Text} :
    (pairs segments)[i]? = some (a, b) ↔ segments[i]? = some a ∧ segments[i + 1]? = some b := by
  rw [pairs, List.getElem?_zip_eq_some, List.getElem?_tail]

/-- `gtin` is the segment after the last `01` that a GTIN follows. -/
def LastGtin (segments : List Text) (gtin : Text) : Prop :=
  ∃ i, segments[i]? = some ['0', '1'] ∧ segments[i + 1]? = some gtin ∧ isGtin gtin = true ∧
    ∀ j, i < j → segments[j]? = some ['0', '1'] → ∀ g, segments[j + 1]? = some g → isGtin g = false

theorem gtinPair_iff {pair : Text × Text} : gtinPair pair = true ↔ pair.1 = ['0', '1'] ∧ isGtin pair.2 = true := by
  rw [gtinPair, Bool.and_eq_true, decide_eq_true_iff]

theorem lastGtin_of_find {segments : List Text} {pair : Text × Text}
    (h : (pairs segments).reverse.find? gtinPair = some pair) : LastGtin segments pair.2 := by
  obtain ⟨hpair, after, before, heq, hafter⟩ := List.find?_eq_some_iff_append.mp h
  obtain ⟨hfirst, hgtin⟩ := gtinPair_iff.mp hpair
  have hsplit : pairs segments = before.reverse ++ pair :: after.reverse := by
    have := congrArg List.reverse heq
    simpa using this
  have hat : (pairs segments)[before.length]? = some (pair.1, pair.2) := by
    rw [hsplit, List.getElem?_append_right (by simp)]
    simp
  obtain ⟨hi, hi'⟩ := getElem?_pairs.mp hat
  refine ⟨before.length, hfirst ▸ hi, hi', hgtin, fun j hj hj' g hg => ?_⟩
  have hpairs := getElem?_pairs.mpr ⟨hj', hg⟩
  rw [hsplit, List.getElem?_append_right (by simp; omega)] at hpairs
  have hmem : (['0', '1'], g) ∈ after.reverse := by
    obtain ⟨n, hn⟩ : ∃ n, j - before.reverse.length = n + 1 := ⟨j - before.length - 1, by simp; omega⟩
    rw [hn, List.getElem?_cons_succ] at hpairs
    exact List.mem_of_getElem? hpairs
  have hnot := hafter _ (List.mem_reverse.mp hmem)
  simpa [gtinPair] using hnot

/-! ### The two readers -/

/-- The first value of (01) stays. -/
theorem gtin_set {fields : Fields} {gtin : Text} (h : fields.gtin = some gtin) (ai value : Text) :
    (fields.set ai value).gtin = some gtin := by
  unfold Fields.set
  split
  · rw [h]
    rfl
  · split
    · exact h
    · split
      · exact h
      · exact h

theorem gtin_foldl {fields : Fields} {gtin : Text} (h : fields.gtin = some gtin) (parts : List Text) :
    (parts.foldl (fun fields pair =>
      match splitOnce ['='] pair with
      | some (key, value) => fields.set key value
      | none => fields) fields).gtin = some gtin := by
  induction parts generalizing fields with
  | nil => exact h
  | cons part parts ih =>
    rw [List.foldl_cons]
    refine ih ?_
    split
    · exact gtin_set h _ _
    · exact h

/-- What the API reads of a URL: the last GTIN of what the web scanned. -/
theorem digitalLink_http (h : Http scheme) (rest : Text) :
    (digitalLink (scheme ++ schemeSeparator ++ rest)).map Fields.gtin =
      ((pairs (Photo.segments rest)).reverse.find? gtinPair).map fun pair => some (pair.2.leftpad 14 '0') := by
  have hcut := path_cut h rest
  rw [digitalLink]
  dsimp only
  rcases hquery : (splitOnce ['?'] ((scheme ++ schemeSeparator ++ rest).takeWhile (· ≠ '#'))).getD
    ((scheme ++ schemeSeparator ++ rest).takeWhile (· ≠ '#'), []) with ⟨path, query⟩
  rw [hquery] at hcut
  dsimp only at hcut ⊢
  rw [hcut]
  simp only [Option.bind_eq_bind, Option.bind_some, Option.pure_def]
  have hsegments : ((scanned rest).splitOn '/').drop 1 = Photo.segments rest := rfl
  rw [hsegments]
  cases hfind : (pairs (Photo.segments rest)).reverse.find? gtinPair with
  | none => rfl
  | some pair =>
    simp only [Option.map_some, Option.bind_some, Option.some.injEq]
    exact gtin_foldl rfl _

theorem isUrl_iff : isUrl t = true ↔ ∃ scheme rest, splitOnce schemeSeparator t = some (scheme, rest) ∧ Http scheme := by
  rw [isUrl]
  cases hcut : splitOnce schemeSeparator t with
  | none => simp
  | some cut =>
    obtain ⟨scheme, rest⟩ := cut
    simp [Http]

/-- PHOTO: the web passes on the Digital Links the API reads, and the API takes the last GTIN of the path it scanned. -/
theorem isGs1_2d_iff (t : Text) :
    (Photo.isGs1_2d t none = true ↔ isUrl t = true ∧ (digitalLink t).isSome = true) ∧
    ∀ fields, isUrl t = true → digitalLink t = some fields → ∃ scheme rest gtin,
      splitOnce schemeSeparator t = some (scheme, rest) ∧ LastGtin (Photo.segments rest) gtin ∧
      fields.gtin = some (gtin.leftpad 14 '0') := by
  constructor
  · rw [isUrl_iff, Photo.isGs1_2d, if_neg (by simp)]
    cases hcut : splitOnce schemeSeparator t with
    | none => simp
    | some cut =>
      obtain ⟨scheme, rest⟩ := cut
      obtain rfl := eq_of_splitOnce hcut
      by_cases hhttp : Http scheme
      · have hweb := digitalLink_http hhttp rest
        have hsome : (digitalLink (scheme ++ schemeSeparator ++ rest)).isSome =
            ((pairs (Photo.segments rest)).reverse.find? gtinPair).isSome := by
          have := congrArg Option.isSome hweb
          simpa using this
        have hurl : ∃ s r, some (scheme, rest) = some (s, r) ∧ Http s := ⟨scheme, rest, rfl, hhttp⟩
        have hscheme : ¬(!(eqIgnoreAsciiCase scheme http || eqIgnoreAsciiCase scheme https)) = true := by
          rw [Bool.not_eq_true', Bool.not_eq_false]
          exact hhttp
        rw [hsome, and_iff_right hurl, List.find?_isSome]
        dsimp only
        rw [if_neg hscheme, List.any_eq_true]
        simp only [List.mem_reverse, photo_isGtin]
        rfl
      · have hscheme : (!(eqIgnoreAsciiCase scheme http || eqIgnoreAsciiCase scheme https)) = true := by
          rw [Bool.not_eq_true', ← Bool.not_eq_true]
          exact hhttp
        refine iff_of_false ?_ ?_
        · dsimp only
          rw [if_pos hscheme]
          exact Bool.false_ne_true
        · rintro ⟨⟨s, r, heq, hs⟩, -⟩
          obtain ⟨rfl, rfl⟩ := Prod.mk.inj (Option.some.inj heq)
          exact hhttp hs
  · intro fields hurl hfields
    obtain ⟨scheme, rest, hcut, hhttp⟩ := isUrl_iff.mp hurl
    obtain rfl := eq_of_splitOnce hcut
    have hweb := digitalLink_http hhttp rest
    rw [hfields, Option.map_some] at hweb
    obtain ⟨pair, hfind, hgtin⟩ := Option.map_eq_some_iff.mp hweb.symm
    exact ⟨scheme, rest, pair.2, hcut, lastGtin_of_find hfind, hgtin.symm⟩

end Home.Stocks
