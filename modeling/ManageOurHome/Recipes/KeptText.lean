import ManageOurHome.Recipes.PlainText

/-! @src apps/api/src/recipes/jsonld.rs | layer:proof | family:text of a page

    What `plain_text` keeps of a text, whitespace aside: all of it, its entities decoded, unless something in it reads
    as a tag. And what is kept of texts joined: what is kept of each, unless an entity runs over from one into the
    next. Either way what is read is less.

        1 <  ·  b>     joined   1 <b>    kept   1
        &am  ·  p;     joined   &amp;    kept   &  -/

namespace Home.Recipes

open Net

/-- The characters of a text that are no whitespace. -/
def visible (s : Text) : Text := s.filter fun c => !isWhitespace c

/-- How many of them a text is read as. -/
def shown (s : Text) : ℕ := (visible (decodeEntities s)).length

section Visible

variable {s t : Text} {c : Char}

theorem visible_append (s t : Text) : visible (s ++ t) = visible s ++ visible t := List.filter_append s t

theorem visible_flatMap {α : Type*} (f : α → Text) (l : List α) : visible (l.flatMap f) = l.flatMap fun a => visible (f a) := by
  induction l with
  | nil => rfl
  | cons a l ih => rw [List.flatMap_cons, visible_append, ih, List.flatMap_cons]

theorem visible_cons_of_whitespace (hc : isWhitespace c) (s : Text) : visible (c :: s) = visible s :=
  List.filter_cons_of_neg (by simp [hc])

theorem visible_eq_self (h : ∀ c ∈ s, isWhitespace c = false) : visible s = s :=
  List.filter_eq_self.mpr fun c hc => by simp [h c hc]

/-! ### Whitespace collapsed -/

theorem flatten_splitOnP (s : Text) : (s.splitOnP isWhitespace).flatten = visible s := by
  induction s with
  | nil => rfl
  | cons c s ih =>
    rw [List.splitOnP_cons_eq_if_modifyHead]
    split
    · rename_i hc
      rw [visible_cons_of_whitespace hc, List.flatten_cons, ih]
      rfl
    · rename_i hc
      obtain ⟨word, words, hwords⟩ := List.exists_cons_of_ne_nil (List.splitOnP_ne_nil isWhitespace s)
      rw [hwords, List.flatten_cons] at ih
      rw [hwords, List.modifyHead_cons, List.flatten_cons, List.cons_append, ih, visible, visible,
        List.filter_cons_of_pos (by simpa using hc)]

theorem visible_intercalate (words : List Text) : visible ([' '].intercalate words) = visible words.flatten := by
  induction words with
  | nil => rfl
  | cons word words ih =>
    cases words with
    | nil => rw [List.intercalate_singleton, List.flatten_cons, List.flatten_nil, List.append_nil]
    | cons next words =>
      rw [List.intercalate_cons_cons, visible_append, visible_append, ih, List.flatten_cons (l := word), visible_append]
      have hspace : visible [' '] = [] := rfl
      rw [hspace, List.append_nil]

/-- Collapsing loses whitespace alone. -/
theorem visible_collapse (s : Text) : visible (collapse s) = visible s := by
  have hwords : (splitWhitespace s).flatten = (s.splitOnP isWhitespace).flatten := by
    rw [splitWhitespace]
    exact List.flatten_filter_ne_nil
  rw [collapse, visible_intercalate, hwords, flatten_splitOnP, visible, visible, List.filter_filter]
  simp only [Bool.and_self]

end Visible

/-! ### Entities -/

/-- What the name of an entity is written with. -/
def EntityChar (c : Char) : Prop := (digitValue c).isSome ∨ c = '#' ∨ c = '+'

instance : DecidablePred EntityChar := fun _ => inferInstanceAs (Decidable (_ ∨ _))

section Entities

variable {x y s rest name after : Text} {c d : Char}

theorem EntityChar.visible (h : EntityChar c) : isWhitespace c = false := by
  rcases h with h | rfl | rfl
  · rw [digitValue] at h
    rw [isWhitespace, decide_eq_false_iff_not]
    split at h
    · rename_i hc
      have hlo : 48 ≤ c.toNat := hc.1
      have hhi : c.toNat ≤ 57 := hc.2
      omega
    · split at h
      · rename_i hc
        have hlo : 97 ≤ c.toNat := hc.1
        have hhi : c.toNat ≤ 122 := hc.2
        omega
      · split at h
        · rename_i hc
          have hlo : 65 ≤ c.toNat := hc.1
          have hhi : c.toNat ≤ 90 := hc.2
          omega
        · cases h
  · decide
  · decide

theorem EntityChar.ne (h : EntityChar c) (hd : ¬ EntityChar d) : c ≠ d := fun heq => hd (heq ▸ h)

theorem parseU32_chars {radix n : ℕ} (h : parseU32 radix s = some n) : ∀ d ∈ s, EntityChar d := by
  obtain ⟨digits, hdigits⟩ : ∃ digits, digits = if s.head? = some '+' then s.tail else s := ⟨_, rfl⟩
  rw [parseU32, ← hdigits] at h
  have hall : ∀ d ∈ digits, EntityChar d := by
    split at h
    · rename_i hvalue
      intro d hd
      have hsome := List.all_eq_true.mp hvalue.2.1 d hd
      rw [toDigit] at hsome
      obtain ⟨n, hn⟩ := Option.isSome_iff_exists.mp hsome
      exact .inl (by rw [(Option.filter_eq_some_iff.mp hn).1]; rfl)
    · cases h
  split at hdigits
  · rename_i hplus
    cases s with
    | nil => cases hplus
    | cons c s =>
      obtain rfl : c = '+' := Option.some.inj hplus
      rw [hdigits] at hall
      exact List.forall_mem_cons.mpr ⟨.inr (.inr rfl), hall⟩
  · exact hdigits ▸ hall

theorem entity_chars (h : entity name = some c) : ∀ d ∈ name, EntityChar d := by
  unfold entity at h
  split at h
  · rename_i number
    refine List.forall_mem_cons.mpr ⟨.inr (.inl rfl), ?_⟩
    have hletter : EntityChar 'x' ∧ EntityChar 'X' := by decide
    split at h
    · obtain ⟨n, hn, -⟩ := Option.bind_eq_some_iff.mp h
      exact List.forall_mem_cons.mpr ⟨hletter.1, parseU32_chars hn⟩
    · obtain ⟨n, hn, -⟩ := Option.bind_eq_some_iff.mp h
      exact List.forall_mem_cons.mpr ⟨hletter.2, parseU32_chars hn⟩
    · obtain ⟨n, hn, -⟩ := Option.bind_eq_some_iff.mp h
      exact parseU32_chars hn
  · obtain ⟨p, hp, -⟩ := Option.map_eq_some_iff.mp h
    have hname : p.1.toList = name := by simpa using List.find?_some hp
    have hall : ∀ p ∈ NAMED_ENTITIES, p.1.toList.all (fun d => EntityChar d) := by decide
    rw [← hname]
    exact List.all_iff_forall_prop.mp (hall p (List.mem_of_find?_eq_some hp))

/-- An entity is its name, then a `;`. -/
theorem decoded_eq_some : decoded after = some (c, rest) ↔
    ∃ name, after = name ++ ';' :: rest ∧ entity name = some c ∧ (name.map Char.utf8Size).sum ≤ ENTITY_MAX_LEN := by
  constructor
  · intro h
    rw [decoded] at h
    split at h
    · rename_i name left hcut
      split at h
      · rename_i hsize
        obtain ⟨d, hd, heq⟩ := Option.map_eq_some_iff.mp h
        obtain ⟨rfl, rfl⟩ := Prod.mk.inj heq
        exact ⟨name, cutAt_eq_append hcut, hd, hsize⟩
      · cases h
    · cases h
  · rintro ⟨name, rfl, hentity, hsize⟩
    have hsemicolon : ';' ∉ name := fun hin => (entity_chars hentity _ hin).ne (by decide) rfl
    rw [decoded, cutAt_singleton rest hsemicolon]
    exact (if_pos hsize).trans (hentity ▸ rfl)

theorem decodeEntities_cons (hc : c ≠ '&') (s : Text) : decodeEntities (c :: s) = c :: decodeEntities s := by
  rw [decodeEntities, if_pos hc]

theorem decodeEntities_reference (h : decoded after = some (c, rest)) :
    decodeEntities ('&' :: after) = c :: decodeEntities rest := by
  rw [decodeEntities, if_neg (by simp)]
  split
  · rename_i d left hread
    rw [h] at hread
    obtain ⟨rfl, rfl⟩ := Prod.mk.inj (Option.some.inj hread)
    rfl
  · rename_i hread
    rw [h] at hread
    cases hread

theorem decodeEntities_ampersand (h : decoded after = none) :
    decodeEntities ('&' :: after) = '&' :: decodeEntities after := by
  rw [decodeEntities, if_neg (by simp)]
  split
  · rename_i hread
    rw [h] at hread
    cases hread
  · rfl

theorem decodeEntities_chars (hx : ∀ c ∈ x, EntityChar c) (s : Text) :
    decodeEntities (x ++ s) = x ++ decodeEntities s := by
  induction x with
  | nil => rfl
  | cons c x ih =>
    rw [List.forall_mem_cons] at hx
    rw [List.cons_append, decodeEntities_cons (hx.1.ne (by decide)), ih hx.2, List.cons_append]

end Entities

/-! ### Texts joined -/

/-- An entity runs over from `x` into `y`: an `&` of `x` stands for a character with what follows only. -/
def RunsOver (x y : Text) : Prop :=
  ∃ before after, x = before ++ '&' :: after ∧ decoded after = none ∧ (decoded (after ++ y)).isSome

section Joined

variable {x y s t rest name after : Text} {c d : Char}

theorem shown_of_append (h : decodeEntities s = x ++ decodeEntities t) : shown s = (visible x).length + shown t := by
  rw [shown, h, visible_append, List.length_append, shown]

theorem decoded_append (h : decoded x = some (c, rest)) (y : Text) : decoded (x ++ y) = some (c, rest ++ y) := by
  obtain ⟨name, rfl, hname⟩ := decoded_eq_some.mp h
  exact decoded_eq_some.mpr ⟨name, by rw [List.append_assoc, List.cons_append], hname⟩

/-- What is left of the name of an entity that runs over, and its `;`, are what `y` starts with. -/
theorem exists_of_decoded (hx : decoded x = none) (h : decoded (x ++ y) = some (c, rest)) :
    ∃ n, y = n ++ ';' :: rest ∧ entity (x ++ n) = some c ∧ ((x ++ n).map Char.utf8Size).sum ≤ ENTITY_MAX_LEN := by
  obtain ⟨name, hsplit, hname⟩ := decoded_eq_some.mp h
  rcases List.append_eq_append_iff.mp hsplit with ⟨n, rfl, hy⟩ | ⟨left, hleft, hrest⟩
  · exact ⟨n, hy, hname⟩
  · cases left with
    | nil =>
      rw [List.append_nil] at hleft
      refine ⟨[], hrest.symm, ?_⟩
      rw [List.append_nil, hleft]
      exact hname
    | cons d left =>
      obtain ⟨rfl, -⟩ := List.cons.inj (hrest.trans (List.cons_append ..))
      rw [decoded_eq_some.mpr ⟨name, hleft, hname⟩] at hx
      cases hx

theorem runsOver_nil (y : Text) : ¬ RunsOver [] y := by
  rintro ⟨before, after, hnil, -⟩
  exact List.append_ne_nil_of_right_ne_nil before (List.cons_ne_nil _ _) hnil.symm

theorem runsOver_cons : RunsOver (c :: x) y ↔
    (c = '&' ∧ decoded x = none ∧ (decoded (x ++ y)).isSome) ∨ RunsOver x y := by
  constructor
  · rintro ⟨before, after, hx, hnone, hsome⟩
    cases before with
    | nil =>
      obtain ⟨rfl, rfl⟩ := List.cons.inj hx
      exact .inl ⟨rfl, hnone, hsome⟩
    | cons d before =>
      obtain ⟨rfl, rfl⟩ := List.cons.inj hx
      exact .inr ⟨before, after, rfl, hnone, hsome⟩
  · rintro (⟨rfl, hnone, hsome⟩ | ⟨before, after, rfl, hnone, hsome⟩)
    · exact ⟨[], x, rfl, hnone, hsome⟩
    · exact ⟨c :: before, after, rfl, hnone, hsome⟩

theorem runsOver_plain (hc : c ≠ '&') : RunsOver (c :: x) y ↔ RunsOver x y := by
  rw [runsOver_cons]
  exact or_iff_right fun h => hc h.1

theorem runsOver_reference (h : decoded x = some (c, rest)) : RunsOver ('&' :: x) y ↔ RunsOver rest y := by
  have hchars : ∀ {name : Text}, (∀ d ∈ name, EntityChar d) → ∀ s, RunsOver (name ++ s) y ↔ RunsOver s y := by
    intro name hname s
    induction name with
    | nil => exact Iff.rfl
    | cons d name ih =>
      rw [List.forall_mem_cons] at hname
      rw [List.cons_append, runsOver_plain (hname.1.ne (by decide)), ih hname.2]
  obtain ⟨name, rfl, hname, -⟩ := decoded_eq_some.mp h
  rw [runsOver_cons, h, or_iff_right fun hnone => (by cases hnone.2.1), hchars (entity_chars hname),
    runsOver_plain (by decide)]

/-- Two texts read as each is, or as less. -/
theorem decodeEntities_append (x y : Text) :
    (¬ RunsOver x y ∧ decodeEntities (x ++ y) = decodeEntities x ++ decodeEntities y) ∨
      (RunsOver x y ∧ shown (x ++ y) < shown x + shown y) := by
  -- What is read of the first characters is read the same, whatever follows.
  have hstep : ∀ {x x' z : Text}, (RunsOver x y ↔ RunsOver x' y) → decodeEntities x = z ++ decodeEntities x' →
      decodeEntities (x ++ y) = z ++ decodeEntities (x' ++ y) →
      ((¬ RunsOver x' y ∧ decodeEntities (x' ++ y) = decodeEntities x' ++ decodeEntities y) ∨
        (RunsOver x' y ∧ shown (x' ++ y) < shown x' + shown y)) →
      (¬ RunsOver x y ∧ decodeEntities (x ++ y) = decodeEntities x ++ decodeEntities y) ∨
        (RunsOver x y ∧ shown (x ++ y) < shown x + shown y) := by
    intro x x' z hover hx hxy hrest
    rw [hover]
    rcases hrest with ⟨hnot, hdecode⟩ | ⟨hover', hlt⟩
    · exact .inl ⟨hnot, by rw [hxy, hdecode, hx, List.append_assoc]⟩
    · refine .inr ⟨hover', ?_⟩
      rw [shown_of_append hxy, shown_of_append hx]
      omega
  induction x using decodeEntities.induct with
  | case1 =>
    refine .inl ⟨runsOver_nil y, ?_⟩
    rw [decodeEntities]
    rfl
  | case2 c x hc ih => exact hstep (z := [c]) (runsOver_plain hc) (decodeEntities_cons hc x) (decodeEntities_cons hc _) ih
  | case3 c x hc d rest hread ih =>
    obtain rfl : c = '&' := not_not.mp hc
    exact hstep (z := [d]) (runsOver_reference hread) (decodeEntities_reference hread)
      (decodeEntities_reference (decoded_append hread y)) ih
  | case4 c x hc hread ih =>
    obtain rfl : c = '&' := not_not.mp hc
    cases hjoined : decoded (x ++ y) with
    | none =>
      have hover : RunsOver ('&' :: x) y ↔ RunsOver x y := by
        rw [runsOver_cons, hjoined]
        exact or_iff_right fun h => by cases h.2.2
      exact hstep (z := ['&']) hover (decodeEntities_ampersand hread) (decodeEntities_ampersand hjoined) ih
    | some found =>
      obtain ⟨d, rest⟩ := found
      obtain ⟨n, rfl, hname, -⟩ := exists_of_decoded hread hjoined
      have hchars := entity_chars hname
      refine .inr ⟨runsOver_cons.mpr (.inl ⟨rfl, hread, by rw [hjoined]; rfl⟩), ?_⟩
      have hall : shown ('&' :: (x ++ (n ++ ';' :: rest))) = (visible [d]).length + shown rest :=
        shown_of_append (x := [d]) (decodeEntities_reference hjoined)
      have hfirst : shown ('&' :: x) = (visible ['&']).length + shown x :=
        shown_of_append (x := ['&']) (decodeEntities_ampersand hread)
      have hnext : shown (n ++ ';' :: rest) = (visible (n ++ [';'])).length + shown rest := by
        refine shown_of_append (x := n ++ [';']) ?_
        rw [decodeEntities_chars fun c hc => hchars c (List.mem_append_right _ hc), decodeEntities_cons (by decide),
          List.append_assoc]
        rfl
      have hone : (visible [d]).length ≤ 1 := List.length_filter_le _ [d]
      have hampersand : (visible ['&']).length = 1 := by decide
      have hsemicolon : (visible [';']).length = 1 := by decide
      rw [visible_append, List.length_append] at hnext
      rw [List.cons_append, hall, hfirst, hnext]
      omega

end Joined

/-- An entity runs over from one of some texts into those after it. -/
def AnyRunsOver : List Text → Prop
  | [] => False
  | t :: texts => RunsOver t texts.flatten ∨ AnyRunsOver texts

theorem AnyRunsOver.append_left {texts : List Text} (h : AnyRunsOver texts) (first : List Text) :
    AnyRunsOver (first ++ texts) := by
  induction first with
  | nil => exact h
  | cons t first ih => exact .inr ih

/-- Texts joined read as each is, or as less. -/
theorem decodeEntities_flatten (texts : List Text) :
    (¬ AnyRunsOver texts ∧ decodeEntities texts.flatten = texts.flatMap decodeEntities) ∨
      (AnyRunsOver texts ∧ shown texts.flatten < (texts.map shown).sum) := by
  induction texts with
  | nil =>
    refine .inl ⟨not_false, ?_⟩
    rw [List.flatten_nil, decodeEntities]
    rfl
  | cons t texts ih =>
    have hall : shown texts.flatten ≤ (texts.map shown).sum := by
      rcases ih with ⟨-, hdecode⟩ | ⟨-, hlt⟩
      · rw [shown, hdecode, visible_flatMap, List.length_flatMap]
        exact le_rfl
      · exact hlt.le
    have hsum : ((t :: texts).map shown).sum = shown t + (texts.map shown).sum := by rw [List.map_cons, List.sum_cons]
    rw [List.flatten_cons, List.flatMap_cons, AnyRunsOver, hsum]
    rcases decodeEntities_append t texts.flatten with ⟨hnot, hdecode⟩ | ⟨hover, hlt⟩
    · rcases ih with ⟨hnone, htexts⟩ | ⟨hany, hlt⟩
      · exact .inl ⟨not_or.mpr ⟨hnot, hnone⟩, by rw [hdecode, htexts]⟩
      · refine .inr ⟨.inr hany, ?_⟩
        rw [shown_of_append hdecode, ← shown]
        omega
    · exact .inr ⟨.inl hover, by omega⟩

/-! ### Tags dropped -/

/-- Something reads as a tag: a `<` that opens one, and a `>` after it. -/
def ReadsTag (s : Text) : Prop := ∃ before after, s = before ++ '<' :: after ∧ opensTag after ∧ '>' ∈ after

section Tags

variable {x y s : Text} {c : Char}

theorem ReadsTag.append_left (h : ReadsTag s) (x : Text) : ReadsTag (x ++ s) := by
  obtain ⟨before, after, rfl, hafter⟩ := h
  exact ⟨x ++ before, after, by rw [List.append_assoc], hafter⟩

theorem opensTag_append (h : x ≠ []) (y : Text) : opensTag (x ++ y) = opensTag x := by
  cases x with
  | nil => exact absurd rfl h
  | cons c x => rfl

theorem ReadsTag.append_right (h : ReadsTag s) (y : Text) : ReadsTag (s ++ y) := by
  obtain ⟨before, after, rfl, hopens, hin⟩ := h
  refine ⟨before, after ++ y, by rw [List.append_assoc]; rfl, ?_, List.mem_append_left _ hin⟩
  rw [opensTag_append (List.ne_nil_of_mem hin)]
  exact hopens

theorem readsTag_cons : ReadsTag (c :: s) ↔ (c = '<' ∧ opensTag s ∧ '>' ∈ s) ∨ ReadsTag s := by
  constructor
  · rintro ⟨before, after, hs, hafter⟩
    cases before with
    | nil =>
      obtain ⟨rfl, rfl⟩ := List.cons.inj hs
      exact .inl ⟨rfl, hafter⟩
    | cons d before =>
      obtain ⟨rfl, rfl⟩ := List.cons.inj hs
      exact .inr ⟨before, after, rfl, hafter⟩
  · rintro (⟨rfl, hafter⟩ | h)
    · exact ⟨[], s, rfl, hafter⟩
    · exact h.append_left [c]

theorem cutAt_eq_none {d : Char} : cutAt [d] s = none ↔ d ∉ s := by
  induction s with
  | nil => exact iff_of_true rfl List.not_mem_nil
  | cons c s ih =>
    rw [cutAt, List.mem_cons, not_or]
    split
    · rename_i hstarts
      exact iff_of_false (by simp) fun h => h.1 (List.cons_prefix_cons.mp hstarts).1
    · rename_i hstarts
      rw [Option.map_eq_none_iff, ih]
      refine (and_iff_right fun hc => hstarts ?_).symm
      exact List.cons_prefix_cons.mpr ⟨hc, List.nil_prefix⟩

/-- The first that reads as a tag is dropped, or there is none. -/
theorem stripTags_cases (s : Text) :
    (¬ ReadsTag s ∧ stripTags false s = s) ∨
      (ReadsTag s ∧ ∃ before tag rest, s = before ++ ('<' :: tag ++ '>' :: rest) ∧
        stripTags false s = before ++ stripTags false rest) := by
  -- A character that is kept.
  have hkeep : ∀ {c : Char} {s : Text}, ¬(c = '<' ∧ opensTag s ∧ '>' ∈ s) →
      stripTags false (c :: s) = c :: stripTags false s →
      ((¬ ReadsTag s ∧ stripTags false s = s) ∨
        (ReadsTag s ∧ ∃ before tag rest, s = before ++ ('<' :: tag ++ '>' :: rest) ∧
          stripTags false s = before ++ stripTags false rest)) →
      (¬ ReadsTag (c :: s) ∧ stripTags false (c :: s) = c :: s) ∨
        (ReadsTag (c :: s) ∧ ∃ before tag rest, c :: s = before ++ ('<' :: tag ++ '>' :: rest) ∧
          stripTags false (c :: s) = before ++ stripTags false rest) := by
    intro c s hc hstrip hrest
    rw [readsTag_cons, or_iff_right hc, hstrip]
    rcases hrest with ⟨hnot, heq⟩ | ⟨htag, before, tag, rest, rfl, heq⟩
    · exact .inl ⟨hnot, by rw [heq]⟩
    · exact .inr ⟨htag, c :: before, tag, rest, rfl, by rw [heq]; rfl⟩
  induction s with
  | nil =>
    refine .inl ⟨?_, by rw [stripTags]⟩
    rintro ⟨before, after, hnil, -⟩
    exact List.append_ne_nil_of_right_ne_nil before (List.cons_ne_nil _ _) hnil.symm
  | cons c s ih =>
    by_cases hc : c = '<'
    · subst hc
      by_cases hopens : opensTag s = true
      · cases hcut : cutAt ['>'] s with
        | some cut =>
          obtain ⟨tag, rest⟩ := cut
          have hs := cutAt_eq_append hcut
          refine .inr ⟨readsTag_cons.mpr (.inl ⟨rfl, hopens, ?_⟩), [], tag, rest, ?_, ?_⟩
          · rw [hs]
            simp
          · rw [hs]
            rfl
          · rw [stripTags, if_neg (by simp), if_neg (by simp [hopens])]
            split
            · rename_i tag' rest' hread
              rw [hcut] at hread
              obtain ⟨rfl, rfl⟩ := Prod.mk.inj (Option.some.inj hread)
              rw [if_neg (by simp)]
              rfl
            · rename_i hread
              rw [hcut] at hread
              cases hread
        | none =>
          have hnone : '>' ∉ s := cutAt_eq_none.mp hcut
          have hnot : ¬ ReadsTag ('<' :: s) := by
            rintro ⟨before, after, hs, -, hin⟩
            rcases before with _ | ⟨d, before⟩
            · exact hnone ((List.cons.inj hs).2 ▸ hin)
            · exact hnone ((List.cons.inj hs).2 ▸ List.mem_append_right _ (List.mem_cons_of_mem _ hin))
          refine .inl ⟨hnot, ?_⟩
          rw [stripTags, if_neg (by simp), if_neg (by simp [hopens])]
          split
          · rename_i hread
            rw [hcut] at hread
            cases hread
          · rfl
      · refine hkeep (fun h => hopens h.2.1) ?_ ih
        rw [stripTags, if_neg (by simp), if_pos (by simpa using hopens)]
    · refine hkeep (fun h => hc h.1) ?_ ih
      rw [stripTags, if_pos hc]

theorem decodeEntities_append_of_not (h : ¬ RunsOver x y) :
    decodeEntities (x ++ y) = decodeEntities x ++ decodeEntities y := by
  rcases decodeEntities_append x y with ⟨-, hdecode⟩ | ⟨hover, -⟩
  · exact hdecode
  · exact absurd hover h

theorem shown_append_le (x y : Text) : shown (x ++ y) ≤ shown x + shown y := by
  rcases decodeEntities_append x y with ⟨-, hdecode⟩ | ⟨-, hlt⟩
  · exact (shown_of_append hdecode).le
  · exact hlt.le

/-- No entity runs over a character that is in none. -/
theorem not_runsOver_right (hc : ¬ EntityChar c) (hne : c ≠ ';') : ¬ RunsOver x (c :: y) := by
  rintro ⟨before, after, -, hnone, hsome⟩
  obtain ⟨⟨d, rest⟩, hread⟩ := Option.isSome_iff_exists.mp hsome
  obtain ⟨n, hy, hname, -⟩ := exists_of_decoded hnone hread
  cases n with
  | nil => exact hne (List.cons.inj hy).1
  | cons e n => exact hc ((List.cons.inj hy).1 ▸ entity_chars hname e (by simp))

theorem not_runsOver_left (hc : ¬ EntityChar c) (hne : c ≠ '&') : ¬ RunsOver (x ++ [c]) y := by
  rintro ⟨before, after, hx, hnone, hsome⟩
  obtain ⟨⟨d, rest⟩, hread⟩ := Option.isSome_iff_exists.mp hsome
  obtain ⟨n, -, hname, -⟩ := exists_of_decoded hnone hread
  have hin : c ∈ '&' :: after := by
    have hlast := congrArg List.getLast? hx
    rw [List.getLast?_concat, List.getLast?_append_of_ne_nil _ (List.cons_ne_nil _ _)] at hlast
    exact List.mem_of_getLast? hlast.symm
  rcases List.mem_cons.mp hin with heq | hin
  · exact hne heq
  · exact hc (entity_chars hname c (List.mem_append_left _ hin))

/-- Dropping tags leaves less. -/
theorem shown_stripTags_le (s : Text) : shown (stripTags false s) ≤ shown s ∧
    (ReadsTag s → shown (stripTags false s) < shown s) := by
  induction hn : s.length using Nat.strong_induction_on generalizing s with
  | _ n ih =>
    rcases stripTags_cases s with ⟨hnot, heq⟩ | ⟨-, before, tag, rest, rfl, heq⟩
    · rw [heq]
      exact ⟨le_rfl, fun h => absurd h hnot⟩
    · have hrest : shown (stripTags false rest) ≤ shown rest := by
        refine (ih rest.length ?_ rest rfl).1
        rw [← hn]
        simp only [List.length_append, List.length_cons]
        omega
      have hbefore : shown (before ++ ('<' :: tag ++ '>' :: rest)) =
          shown before + shown ('<' :: tag ++ '>' :: rest) :=
        shown_of_append (decodeEntities_append_of_not (not_runsOver_right (by decide) (by decide)))
      have htag : shown ('<' :: tag ++ '>' :: rest) = shown ('<' :: tag ++ ['>']) + shown rest := by
        refine shown_of_append ?_
        rw [← decodeEntities_append_of_not (not_runsOver_left (by decide) (by decide)), List.append_assoc]
        rfl
      have hless : shown ('<' :: tag ++ ['>']) = 1 + shown (tag ++ ['>']) :=
        shown_of_append (x := ['<']) (decodeEntities_cons (by decide) _)
      have hle := shown_append_le before (stripTags false rest)
      rw [heq, hbefore, htag, hless]
      exact ⟨by omega, fun _ => by omega⟩

theorem stripTags_of_not (h : ¬ ReadsTag s) : stripTags false s = s := by
  rcases stripTags_cases s with ⟨-, heq⟩ | ⟨htag, -⟩
  · exact heq
  · exact absurd htag h

end Tags

theorem visible_plainText (s : Text) : visible (plainText s) = visible (decodeEntities (stripTags false s)) := by
  rw [plainText, visible_collapse]

/-- Texts joined keep what each reads as, exactly if nothing in them reads as a tag and no entity runs over. -/
theorem visible_plainText_flatten (texts : List Text) :
    visible (plainText texts.flatten) = texts.flatMap (fun t => visible (decodeEntities t)) ↔
      ¬ ReadsTag texts.flatten ∧ ¬ AnyRunsOver texts := by
  rw [visible_plainText]
  constructor
  · intro h
    have hlength : shown (stripTags false texts.flatten) = (texts.map shown).sum := by
      rw [shown, h, List.length_flatMap]
      rfl
    obtain ⟨hle, hlt⟩ := shown_stripTags_le texts.flatten
    rcases decodeEntities_flatten texts with ⟨hnone, hdecode⟩ | ⟨-, hless⟩
    · have hsum : shown texts.flatten = (texts.map shown).sum := by
        rw [shown, hdecode, visible_flatMap, List.length_flatMap]
        rfl
      refine ⟨fun htag => ?_, hnone⟩
      have hlt := hlt htag
      omega
    · omega
  · rintro ⟨htag, hover⟩
    rcases decodeEntities_flatten texts with ⟨-, hdecode⟩ | ⟨hany, -⟩
    · rw [stripTags_of_not htag, hdecode, visible_flatMap]
    · exact absurd hany hover

end Home.Recipes
