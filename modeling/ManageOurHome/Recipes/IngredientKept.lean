import ManageOurHome.HttpGuard.BaseUrl
import ManageOurHome.Recipes.IngredientUnit

/-! @src apps/api/src/recipes/ingredient_line.rs | layer:proof | family:recipe import

    What a line gives: a part of it as the name, and the number that is written at its head, or after its first colon, to
    the thousandth. A measure that is counted is multiplied. -/

namespace Home.Recipes.IngredientLine

open HttpGuard (eq_of_splitOnce splitOnce)
open Net (value)

variable {lowercase : Char → Text} {alphabetic alphanumeric : Char → Bool} {line text rest after s t name m : Text}
  {v w : F64}

/-! ### Where a quantity is -/

/-- The head of a line, or of what follows its first colon. -/
inductive Place (line : Text) : Text → Prop
  | head : Place line (trim line)
  | measure {name m : Text} : splitOnce [':'] (trim line) = some (name, m) → Place line (trim m)

/-- A quantity is a number, or so many times another, up to a space, a letter or the end. -/
inductive Amount (lowercase : Char → Text) (alphabetic : Char → Bool) : Text → F64 → Text → Prop
  | single {text rest : Text} {v : F64} : Written lowercase text v rest →
      (∀ c ∈ rest.head?, isWhitespace c = true ∨ alphabetic c = true) →
      Amount lowercase alphabetic text v (trimStart rest)
  | counted {text rest each after : Text} {c : Char} {v w : F64} : Written lowercase text v rest →
      (∀ c ∈ rest.head?, isWhitespace c = true ∨ alphabetic c = true) →
      c ∈ ['x', 'X', '×'] → trimStart rest = c :: each → Written lowercase (trimStart each) w after →
      (∀ c ∈ after.head?, isWhitespace c = true ∨ alphabetic c = true) →
      Amount lowercase alphabetic text (v.mul w) (trimStart after)

/-- A range: what follows the first that is there of its separators is a digit. -/
def Range (lowercase : Char → Text) (rest : Text) : Prop :=
  ∃ after d t, ["-".toList, "à ".toList, "a ".toList, "ou ".toList].findSome? (fun pat => without lowercase pat rest) =
    some after ∧ trimStart after = d :: t ∧ d.isDigit = true

/-- Runs of digits that no double is far from: those of no more than 150 digits, say. -/
def Modest (line : Text) : Prop := ∀ ds, Digits ds → ds <:+: line → value 10 ds < 2 ^ 500

/-- What a line gives. -/
structure Read (lowercase : Char → Text) (alphabetic : Char → Bool) (line : Text) (d : DraftIngredient) : Prop where
  trimmed : trim d.name = d.name
  part : d.name <:+: trim line
  named : trim line ≠ [] → d.name ≠ []
  whole : d.quantity = none → d.unit = none ∧ d.name = trim line
  quantified : ∀ q, d.quantity = some q → ∃ text v rest found, Place line text ∧ Amount lowercase alphabetic text v rest ∧
    q = thousandths v ∧ ¬Range lowercase rest ∧ UnitAt lowercase rest found ∧ d.unit = found.map Prod.fst
  finite : Modest line → ∀ q, d.quantity = some q → ∃ r, q = .finite r ∧ 0 ≤ r

/-! ### How large a number is -/

theorem value_append (ds es : Text) : value 10 (ds ++ es) = value 10 ds * 10 ^ es.length + value 10 es := by
  induction es using List.reverseRecOn with
  | nil => simp [value]
  | append_singleton es c ih =>
    rw [← List.append_assoc, Net.value_concat, ih, Net.value_concat, List.length_append, List.length_singleton, pow_succ]
    ring

theorem value_lt (ds : Text) : value 10 ds < 10 ^ ds.length := by
  induction ds using List.reverseRecOn with
  | nil => simp [value]
  | append_singleton ds c ih =>
    have hdigit : (Net.toDigit 10 c).getD 0 < 10 := by
      rw [Net.toDigit]
      cases h : (Net.digitValue c).filter (· < 10) with
      | none => decide
      | some n => simpa using (Option.filter_eq_some_iff.mp h).2
    rw [Net.value_concat, List.length_append, List.length_singleton, pow_succ]
    omega

/-- A double between zero and a power of two. -/
def Within (k : ℕ) (v : F64) : Prop := ∃ q, v = .finite q ∧ 0 ≤ q ∧ q ≤ 2 ^ k

theorem within_ofRat {q : ℚ} {k : ℕ} (hpos : 0 ≤ q) (h : q ≤ 2 ^ k) (hk : k < 1024) : Within k (.ofRat q) :=
  ofRat_le hpos h hk

theorem Within.mono {j k : ℕ} (h : Within j v) (hjk : j ≤ k) : Within k v := by
  obtain ⟨q, rfl, hpos, hle⟩ := h
  exact ⟨q, rfl, hpos, hle.trans (pow_le_pow_right₀ one_le_two hjk)⟩

theorem Within.add {k : ℕ} (hv : Within k v) (hw : Within k w) (hk : k + 1 < 1024) : Within (k + 1) (v.add w) := by
  obtain ⟨q, rfl, hq, hq'⟩ := hv
  obtain ⟨r, rfl, hr, hr'⟩ := hw
  refine within_ofRat (add_nonneg hq hr) ?_ hk
  rw [pow_succ]
  linarith

theorem Within.mul {j k : ℕ} (hv : Within j v) (hw : Within k w) (hk : j + k < 1024) : Within (j + k) (v.mul w) := by
  obtain ⟨q, rfl, hq, hq'⟩ := hv
  obtain ⟨r, rfl, hr, hr'⟩ := hw
  refine within_ofRat (mul_nonneg hq hr) ?_ hk
  rw [pow_add]
  exact mul_le_mul hq' hr' hr (pow_nonneg zero_le_two _)

/-- Over a number that is at least one. -/
theorem Within.div {k : ℕ} {d : ℚ} (hv : Within k v) (hd : 1 ≤ d) (hk : k < 1024) : Within k (v.div (.finite d)) := by
  obtain ⟨q, rfl, hq, hq'⟩ := hv
  have hpos : 0 < d := one_pos.trans_le hd
  rw [F64.div, if_pos hpos.ne']
  exact within_ofRat (div_nonneg hq hpos.le) ((div_le_self hq hd).trans hq') hk

theorem Within.round {k : ℕ} (hv : Within k v) : Within k v.round := by
  obtain ⟨q, rfl, hq, hq'⟩ := hv
  rw [F64.round, if_pos hq]
  have hpos : 0 ≤ ⌊q + 1 / 2⌋ := Int.floor_nonneg.mpr (by linarith)
  have hle : ⌊q + 1 / 2⌋ ≤ (2 ^ k : ℤ) := by
    refine Int.le_of_lt_add_one (Int.floor_lt.mpr ?_)
    push_cast
    linarith
  exact ⟨_, rfl, by exact_mod_cast hpos, by exact_mod_cast hle⟩

theorem Within.thousandths {k : ℕ} (hv : Within k v) (hk : k + 10 < 1024) : Within (k + 10) (thousandths v) := by
  have hthousand : Within 10 (.finite 1000) := ⟨1000, rfl, by norm_num, by norm_num⟩
  exact (hv.mul hthousand hk).round.div (by norm_num) hk

/-! ### What is written is worth -/

theorem double_within {ds : Text} (h : value 10 ds < 2 ^ 500) : Within 500 (double ds) :=
  within_ofRat (Nat.cast_nonneg _) (by exact_mod_cast h.le) (by decide)

/-- A denominator that is not zero is at least one. -/
theorem double_ge {es : Text} (hes : value 10 es < 2 ^ 500) (hne : double es ≠ .finite 0) :
    ∃ d, double es = .finite d ∧ 1 ≤ d := by
  obtain ⟨d, hd, -, -⟩ := double_within hes
  refine ⟨d, hd, one_le_ofRat (q := value 10 es) ?_ hd⟩
  rcases Nat.eq_zero_or_pos (value 10 es) with hzero | hpos
  · refine absurd ?_ hne
    rw [double, hzero]
    exact ofRat_natCast (n := 0) (by decide)
  · exact_mod_cast hpos

theorem fraction_within {c : Char} (h : fraction c = some v) : Within 0 v := by
  obtain ⟨⟨d, v⟩, hfind, rfl⟩ := Option.map_eq_some_iff.mp h
  have hall : ∀ f ∈ FRACTIONS, Within 0 f.2 := by
    have hdiv : ∀ {q : ℚ}, 0 ≤ q → q ≤ 1 → Within 0 (.finite q) := fun h h' => ⟨_, rfl, h, by simpa using h'⟩
    simp only [FRACTIONS, List.forall_mem_cons]
    refine ⟨hdiv (by norm_num) (by norm_num), hdiv (by norm_num) (by norm_num), hdiv (by norm_num) (by norm_num),
      (hdiv (by norm_num) (by norm_num)).div (by norm_num) (by decide), ?_, hdiv (by norm_num) (by norm_num), by simp⟩
    exact within_ofRat (by norm_num) (by norm_num) (by decide)
  exact hall _ (List.mem_of_find?_eq_some hfind)

theorem trimStart_suffix (s : Text) : trimStart s <:+ s := List.dropWhile_suffix _

theorem Modest.mono (h : Modest t) (hs : s <:+: t) : Modest s := fun ds hds hin => h ds hds (hin.trans hs)

theorem Modest.head {ds : Text} (h : Modest (ds ++ rest)) (hds : Digits ds) : value 10 ds < 2 ^ 500 :=
  h ds hds (List.prefix_append ds rest).isInfix

theorem Modest.tail {ds : Text} (h : Modest (ds ++ rest)) : Modest rest := h.mono (List.suffix_append ds rest).isInfix

theorem Modest.cons {c : Char} (h : Modest (c :: s)) : Modest s := h.mono (List.suffix_cons c s).isInfix

theorem Modest.trimStart (h : Modest s) : Modest (trimStart s) := h.mono (trimStart_suffix s).isInfix

theorem decimal_le {ds es : Text} (h : value 10 ds < 2 ^ 500) :
    (value 10 (ds ++ es) / 10 ^ es.length : ℚ) ≤ 2 ^ 500 := by
  have hpow : (0 : ℚ) < 10 ^ es.length := pow_pos (by norm_num) _
  have htail : value 10 es < 10 ^ es.length := value_lt es
  have hnat : value 10 (ds ++ es) ≤ 2 ^ 500 * 10 ^ es.length := by
    calc value 10 (ds ++ es) = value 10 ds * 10 ^ es.length + value 10 es := value_append ds es
      _ ≤ value 10 ds * 10 ^ es.length + 10 ^ es.length := Nat.add_le_add_left htail.le _
      _ = (value 10 ds + 1) * 10 ^ es.length := (Nat.succ_mul _ _).symm
      _ ≤ 2 ^ 500 * 10 ^ es.length := Nat.mul_le_mul_right _ h
  rw [div_le_iff₀ hpow]
  exact_mod_cast hnat

theorem Written.within (h : Written lowercase text v rest) (hmodest : Modest text) : Within 501 v := by
  cases h with
  | one => exact ⟨1, rfl, by norm_num, one_le_pow₀ one_le_two⟩
  | vulgar _ hv => exact (fraction_within hv).mono (by decide)
  | whole hds => exact (double_within (hmodest.head hds)).mono (by decide)
  | fraction _ hds hes hne =>
    have hafter : Modest ('/' :: (_ ++ rest)) := hmodest.tail
    obtain ⟨d, hd, hge⟩ := double_ge (Modest.head hafter.cons hes) hne
    rw [hd]
    exact ((double_within (hmodest.head hds)).div hge (by decide)).mono (by decide)
  | decimal _ _ hds hes =>
    exact (within_ofRat (by positivity) (decimal_le (hmodest.head hds)) (by decide)).mono (by decide)
  | wholeVulgar hds hv _ =>
    exact (double_within (hmodest.head hds)).add ((fraction_within hv).mono (by decide)) (by decide)
  | wholeFraction hds hes hfs hne htext _ =>
    have hspaced := hmodest.tail.trimStart
    rw [htext] at hspaced
    have hafter : Modest ('/' :: (_ ++ rest)) := hspaced.tail
    obtain ⟨d, hd, hge⟩ := double_ge (Modest.head hafter.cons hfs) hne
    rw [hd]
    exact (double_within (hmodest.head hds)).add ((double_within (hspaced.head hes)).div hge (by decide)) (by decide)

theorem suffix_after (ds es rest : Text) (c : Char) : rest <:+ ds ++ c :: (es ++ rest) :=
  ((List.suffix_append es rest).trans (List.suffix_cons c _)).trans (List.suffix_append ds _)

/-- What follows a number is the end of what it starts. -/
theorem Written.suffix (h : Written lowercase text v rest) : rest <:+ text := by
  cases h with
  | one _ hwithout => exact without_suffix hwithout
  | vulgar _ _ => exact List.suffix_cons _ _
  | whole _ _ => exact List.suffix_append _ _
  | fraction _ _ _ _ => exact suffix_after _ _ _ _
  | decimal _ _ _ _ => exact suffix_after _ _ _ _
  | @wholeVulgar ds s rest c v _ _ htext =>
    have hrest : rest <:+ trimStart s := htext ▸ List.suffix_cons c rest
    exact (hrest.trans (trimStart_suffix s)).trans (List.suffix_append ds s)
  | @wholeFraction ds es fs s rest _ _ _ _ htext _ =>
    have hrest : rest <:+ trimStart s := htext ▸ suffix_after es fs rest '/'
    exact (hrest.trans (trimStart_suffix s)).trans (List.suffix_append ds s)

theorem trim_part (s : Text) : trim s <:+: s :=
  (List.rdropWhile_prefix _ _).isInfix.trans (List.dropWhile_suffix _).isInfix

theorem Amount.within (h : Amount lowercase alphabetic text v rest) (hmodest : Modest text) : Within 1002 v := by
  cases h with
  | single hwritten _ => exact (hwritten.within hmodest).mono (by decide)
  | @counted _ each _ c _ _ hwritten _ _ heach hwritten' _ =>
    have hrest := (hmodest.mono hwritten.suffix.isInfix).trimStart
    rw [heach] at hrest
    have heach' : Modest each := hrest.cons
    have hproduct := (hwritten.within hmodest).mul (hwritten'.within heach'.trimStart) (by decide)
    exact hproduct.mono (by decide)

theorem Amount.suffix (h : Amount lowercase alphabetic text v rest) : rest <:+ text := by
  cases h with
  | single hwritten _ => exact (trimStart_suffix _).trans hwritten.suffix
  | @counted rest each after c _ _ hwritten _ _ heach hwritten' _ =>
    have heach : each <:+ trimStart rest := heach ▸ List.suffix_cons c each
    have hafter : after <:+ trimStart rest := (hwritten'.suffix.trans (trimStart_suffix each)).trans heach
    exact ((trimStart_suffix after).trans hafter).trans ((trimStart_suffix rest).trans hwritten.suffix)

/-! ### What a line gives -/

variable (lowercase) in
theorem isRange_eq (rest : Text) : ∃ b, isRange lowercase rest = some b ∧ (b = false → ¬Range lowercase rest) := by
  refine ⟨_, by rw [isRange, firstPrefixCi_eq, Option.map_some], ?_⟩
  rintro hno ⟨after, d, t, hfind, htrim, hdigit⟩
  rw [hfind, Option.any_some, htrim, List.head?_cons, Option.any_some, hdigit] at hno
  cases hno

variable (lowercase alphanumeric) in
theorem refused_eq (rest : Text) :
    ∃ b, refused lowercase alphanumeric rest = some b ∧ (b = false → ¬Range lowercase rest) := by
  obtain ⟨range, hrange, hno⟩ := isRange_eq lowercase rest
  rw [refused, hrange, Option.bind_some, isVague, anyPrefixCi_eq, Option.bind_some, isDuration, anyPrefixCi_eq]
  cases range with
  | true => exact ⟨true, rfl, fun h => by cases h⟩
  | false =>
    rw [if_neg Bool.false_ne_true]
    split
    · exact ⟨true, rfl, fun h => by cases h⟩
    · exact ⟨_, rfl, fun _ => hno rfl⟩

variable (lowercase alphabetic) in
/-- A draft gives the amount that a text starts with, and the unit after it. -/
def Measured (text : Text) (d : DraftIngredient) : Prop :=
  ∃ v rest found, Amount lowercase alphabetic text v rest ∧ d.quantity = some (thousandths v) ∧
    ¬Range lowercase rest ∧ UnitAt lowercase rest found ∧ d.unit = found.map Prod.fst

/-- A name: a part of a text, nothing around it. -/
structure Named (text : Text) (name : Text) : Prop where
  trimmed : trim name = name
  part : name <:+: text
  kept : name ≠ []

theorem unitOf_fst (rest : Text) (found : Option (Text × Text)) : (unitOf rest found).1 = found.map Prod.fst := by
  rcases found with - | ⟨unit, after⟩ <;> rfl

theorem unitOf_suffix {found : Option (Text × Text)} (h : UnitAt lowercase rest found) :
    (unitOf rest found).2 <:+ rest := by
  rcases found with - | ⟨unit, after⟩
  · exact List.suffix_rfl
  · obtain ⟨⟨s, -, -, hstands⟩, -⟩ := h.present unit after rfl
    exact (trimStart_suffix after).trans hstands.suffix

variable (lowercase alphabetic alphanumeric) in
theorem understood_reads (line : Text) : Reads (understood lowercase alphabetic alphanumeric line) fun d =>
    Measured lowercase alphabetic line d ∧ Named line d.name := by
  obtain ⟨r, hr, hspec⟩ := quantity_reads lowercase alphabetic line
  rw [understood, hr, Option.bind_some]
  rcases r with - | ⟨v, rest⟩
  · exact .none
  · obtain ⟨hwritten, hends⟩ := hspec _ rfl
    have hamount : Amount lowercase alphabetic line v (trimStart rest) := .single hwritten hends
    obtain ⟨refuse, hrefuse, hrange⟩ := refused_eq lowercase alphanumeric (trimStart rest)
    obtain ⟨found, hunit, hat⟩ := unit_found lowercase (trimStart rest)
    dsimp only
    rw [hrefuse, Option.bind_some]
    cases refuse with
    | true => exact .none
    | false =>
      have hsuffix := unitOf_suffix hat
      have hof : ∀ a, (ofs.findSome? fun pat => without lowercase pat (unitOf (trimStart rest) found).2) = some a →
          a <:+ (unitOf (trimStart rest) found).2 := by
        intro a ha
        obtain ⟨pat, -, hwithout⟩ := List.exists_of_findSome?_eq_some ha
        exact without_suffix hwithout
      rw [if_neg Bool.false_ne_true, hunit, Option.bind_some, firstPrefixCi_eq,
        Option.map_some]
      generalize (ofs.findSome? fun pat => without lowercase pat (unitOf (trimStart rest) found).2) = of' at hof
      have hname : of'.getD (unitOf (trimStart rest) found).2 <:+ (unitOf (trimStart rest) found).2 := by
        cases of' with
        | none => exact List.suffix_rfl
        | some a => exact hof a rfl
      split
      · exact .none
      · rename_i hne
        refine .some ⟨⟨v, _, found, hamount, rfl, hrange rfl, hat, unitOf_fst _ _⟩, trim_trim _, ?_, hne⟩
        exact (trim_part _).trans ((hname.trans hsuffix).trans hamount.suffix).isInfix

variable (lowercase alphabetic) in
/-- The total of what is counted, and what follows it. -/
theorem counted_reads {v : F64} (hwritten : Written lowercase text v rest)
    (hends : ∀ c ∈ rest.head?, isWhitespace c = true ∨ alphabetic c = true) :
    Reads (counted lowercase alphabetic v (trimStart rest)) fun found =>
      Amount lowercase alphabetic text found.1 found.2.1 := by
  rw [counted]
  rcases heach : stripOne ['x', 'X', '×'] (trimStart rest) with - | each
  · exact .some (.single hwritten hends)
  · obtain ⟨c, hc, htrim⟩ := stripOne_eq_some.mp heach
    obtain ⟨r, hr, hspec⟩ := quantity_reads lowercase alphabetic (trimStart each)
    dsimp only
    rw [hr, Option.map_some]
    rcases r with - | ⟨w, after⟩
    · exact .none
    · obtain ⟨hwritten', hends'⟩ := hspec _ rfl
      exact .some (.counted hwritten hends hc htrim hwritten' hends')

variable (lowercase alphabetic alphanumeric) in
theorem name_first_reads (line : Text) : Reads (nameFirst lowercase alphabetic alphanumeric line) fun d =>
    ∃ name measure, splitOnce [':'] line = some (name, measure) ∧ Measured lowercase alphabetic (trim measure) d ∧
      Named line d.name := by
  rw [nameFirst]
  rcases hsplit : splitOnce [':'] line with - | ⟨name, measure⟩
  · exact .none
  · have hline := eq_of_splitOnce hsplit
    have hname : name <:+: line := hline ▸ (List.append_assoc name _ _ ▸ List.prefix_append name _).isInfix
    have hmeasure : measure <:+: line := hline ▸ (List.suffix_append _ measure).isInfix
    dsimp only
    split
    · exact .none
    · rename_i hne
      have hnamed : Named line (trim name) := ⟨trim_trim name, (trim_part name).trans hname, hne⟩
      obtain ⟨r, hr, hspec⟩ := quantity_reads lowercase alphabetic (trim measure)
      rw [hr, Option.bind_some]
      rcases r with - | ⟨v, rest⟩
      · exact .none
      · obtain ⟨hwritten, hends⟩ := hspec _ rfl
        obtain ⟨r, hr, hspec⟩ := counted_reads lowercase alphabetic hwritten hends
        dsimp only
        rw [hr, Option.bind_some]
        rcases r with - | ⟨v, rest, counted⟩
        · exact .none
        · have hamount := hspec _ rfl
          obtain ⟨refuse, hrefuse, hrange⟩ := refused_eq lowercase alphanumeric rest
          obtain ⟨found, hunit, hat⟩ := unit_found lowercase rest
          dsimp only
          rw [hrefuse, Option.bind_some]
          cases refuse with
          | true => exact .none
          | false =>
            have hmeasured : Measured lowercase alphabetic (trim measure)
                ⟨some (thousandths v), (unitOf rest found).1, trim name⟩ :=
              ⟨v, rest, found, hamount, rfl, hrange rfl, hat, unitOf_fst rest found⟩
            rw [if_neg Bool.false_ne_true, hunit, Option.bind_some]
            split
            · exact .none
            · rw [anyPrefixCi_eq, Option.bind_some]
              split
              · cases counted with
                | true => exact .none
                | false =>
                  have hread := understood_reads lowercase alphabetic alphanumeric (trim measure)
                  refine hread.imp fun d hd => ⟨name, measure, rfl, hd.1, ?_⟩
                  exact ⟨hd.2.trimmed, (hd.2.part.trans (trim_part measure)).trans hmeasure, hd.2.kept⟩
              · split
                · exact .some ⟨name, measure, rfl, hmeasured, hnamed⟩
                · exact .none

theorem read_of_measured {d : DraftIngredient} (hplace : Place line text) (h : Measured lowercase alphabetic text d)
    (hnamed : Named (trim line) d.name) : Read lowercase alphabetic line d := by
  obtain ⟨v, rest, found, hamount, hquantity, hrange, hunit, hgiven⟩ := h
  refine ⟨hnamed.trimmed, hnamed.part, fun _ => hnamed.kept, ?_, ?_, ?_⟩
  · intro hnone
    rw [hquantity] at hnone
    cases hnone
  · intro q hq
    refine ⟨text, v, rest, found, hplace, hamount, ?_, hrange, hunit, hgiven⟩
    exact Option.some.inj (hq.symm.trans hquantity)
  · intro hmodest q hq
    obtain rfl := Option.some.inj (hq.symm.trans hquantity)
    have htrim : Modest (trim line) := hmodest.mono (trim_part line)
    have htext : Modest text := by
      cases hplace with
      | head => exact htrim
      | measure hsplit =>
        have hline := eq_of_splitOnce hsplit
        rw [hline] at htrim
        exact htrim.tail.mono (trim_part _)
    obtain ⟨r, hr, hpos, -⟩ := (hamount.within htext).thousandths (by decide)
    exact ⟨r, hr, hpos⟩

/-- Any line is read, and what it gives is there. -/
theorem line_read (lowercase : Char → Text) (alphabetic alphanumeric : Char → Bool) (line : Text) :
    ∃ d, parseLine lowercase alphabetic alphanumeric line = some d ∧ Read lowercase alphabetic line d := by
  obtain ⟨r, hr, hspec⟩ := understood_reads lowercase alphabetic alphanumeric (trim line)
  rw [parseLine, hr, Option.bind_some]
  rcases r with - | d
  · obtain ⟨r, hr, hspec⟩ := name_first_reads lowercase alphabetic alphanumeric (trim line)
    refine ⟨_, by rw [hr, Option.map_some], ?_⟩
    rcases r with - | d
    · rw [Option.getD_none]
      refine ⟨trim_trim line, List.infix_rfl, id, fun _ => ⟨rfl, rfl⟩, ?_, ?_⟩
      · intro q hq
        cases hq
      · intro _ q hq
        cases hq
    · obtain ⟨name, measure, hsplit, hmeasured, hnamed⟩ := hspec d rfl
      exact read_of_measured (.measure hsplit) hmeasured hnamed
  · obtain ⟨hmeasured, hnamed⟩ := hspec d rfl
    exact ⟨d, rfl, read_of_measured .head hmeasured hnamed⟩

theorem refused_nil : refused lowercase alphanumeric [] = some false := by
  have hpat : ∀ pat ∈ DURATIONS, pat ≠ [] := by decide
  have hnone : ∀ pat : Text, pat ≠ [] → without lowercase pat [] = none := by
    intro pat hne
    obtain ⟨c, pat, rfl⟩ := List.exists_cons_of_ne_nil hne
    rfl
  have hduration : DURATIONS.any (fun pat => (without lowercase pat []).any fun after =>
      !after.head?.any alphanumeric) = false := by
    rw [List.any_eq_false]
    intro pat hmem
    rw [hnone pat (hpat pat hmem)]
    exact Bool.false_ne_true
  rw [refused, isRange, firstPrefixCi_eq, isVague, anyPrefixCi_eq, isDuration, anyPrefixCi_eq, hduration]
  rfl

/-- A measure that nothing follows is a quantity without a unit. -/
theorem nameFirst_bare (hsplit : splitOnce [':'] line = some (name, m)) (hname : trim name ≠ [])
    (hquantity : quantity lowercase alphabetic (trim m) = some (some (v, []))) :
    nameFirst lowercase alphabetic alphanumeric line = some (some ⟨some (thousandths v), none, trim name⟩) := by
  rw [nameFirst, hsplit]
  dsimp only
  rw [if_neg hname, hquantity, Option.bind_some]
  dsimp only
  have hcounted : counted lowercase alphabetic v (trimStart []) = some (some (v, [], false)) := rfl
  rw [hcounted, Option.bind_some]
  dsimp only
  rw [refused_nil, Option.bind_some, if_neg Bool.false_ne_true, unit_nil, Option.bind_some,
    if_neg (fun h => Bool.false_ne_true h.2)]
  rfl

/-- A third of a lemon: what is written is no number of thousandths. -/
theorem third_rounded : ∃ d q v, parseLine (fun c => [c.toLower]) Char.isAlpha Char.isAlphanum "Citron:1/3".toList =
    some d ∧ d.quantity = some q ∧ number "1/3".toList = some (some (v, [])) ∧ q ≠ v := by
  have hunderstood : understood (fun c => [c.toLower]) Char.isAlpha Char.isAlphanum (trim "Citron:1/3".toList) =
      some none := by decide +kernel
  have hsplit : splitOnce [':'] (trim "Citron:1/3".toList) = some ("Citron".toList, "1/3".toList) := by decide +kernel
  have hquantity : quantity (fun c => [c.toLower]) Char.isAlpha (trim "1/3".toList) =
      some (some (.finite (6004799503160661 / 18014398509481984), [])) := by decide +kernel
  refine ⟨⟨some (thousandths (.finite (6004799503160661 / 18014398509481984))), none, "Citron".toList⟩, _, _, ?_, rfl,
    (by decide +kernel : number "1/3".toList = some (some (.finite (6004799503160661 / 18014398509481984), []))),
    by decide +kernel⟩
  have hname : trim "Citron".toList = "Citron".toList := by decide
  rw [parseLine, hunderstood, Option.bind_some, nameFirst_bare hsplit (by decide) hquantity, hname]
  rfl

end Home.Recipes.IngredientLine
