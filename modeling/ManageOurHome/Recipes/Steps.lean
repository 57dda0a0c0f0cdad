import ManageOurHome.Recipes.PlainText

/-! @src apps/shared/src/validation/recipes.rs | layer:proof | family:recipe form

    The steps of a recipe: the lines of its instructions, each without the number it may start with. The form's steps
    are stored one a line, their whitespace collapsed, and read back so.

        1. Mélanger        ──▶   Mélanger   ──▶   Mélanger
        2) Cuire  12.5 g         Cuire  12.5 g    Cuire 12.5 g -/

namespace Home.Recipes

/-! ### The two functions -/

/-- `str::trim_start`. -/
def trimStart (s : Text) : Text := s.dropWhile isWhitespace

def withoutStepNumber (line : Text) : Text :=
  if line.takeWhile Char.isDigit = [] then line
  else
    match line.dropWhile Char.isDigit with
    | [] => line
    | c :: after =>
      if (c = '.' ∨ c = ')') ∧ (after = [] ∨ after.head?.any isWhitespace) then trimStart after else line

def stepsOf (instructions : Text) : List Text :=
  ((linesFrom [] instructions).map fun l => withoutStepNumber (trim l)).filter (· ≠ [])

/-- `None` where no step is left. -/
def joinSteps (steps : List Text) : Option Text :=
  let lines := (steps.map collapse).filter (· ≠ [])
  if lines = [] then none else some (['\n'].intercalate lines)

variable {s u line digits rest tail : Text} {c sep : Char} {words lines steps : List Text}

/-! ### Words -/

/-- Characters, none of them whitespace. -/
structure Word (u : Text) : Prop where
  ne_nil : u ≠ []
  visible : ∀ c ∈ u, isWhitespace c = false

theorem splitWhitespace_word (hu : Word u) : splitWhitespace u = [u] := by
  rw [splitWhitespace, List.splitOnP_eq_singleton hu.visible]
  simp [hu.ne_nil]

theorem splitWhitespace_append (hu : Word u) (hc : isWhitespace c = true) :
    splitWhitespace (u ++ c :: rest) = u :: splitWhitespace rest := by
  rw [splitWhitespace, List.splitOnP_append_cons_of_forall_mem hu.visible c hc,
    List.filter_cons_of_pos (by simp [hu.ne_nil])]
  rfl

theorem visible_of_mem_splitOnP {part : Text} (h : part ∈ s.splitOnP isWhitespace) :
    ∀ c ∈ part, isWhitespace c = false := by
  induction s generalizing part with
  | nil =>
    rw [List.splitOnP_nil, List.mem_singleton] at h
    simp [h]
  | cons d s ih =>
    rw [List.splitOnP_cons_eq_if_modifyHead] at h
    split at h
    · rcases List.mem_cons.mp h with rfl | h
      · simp
      · exact ih h
    · rename_i hd
      obtain ⟨first, parts, hparts⟩ := List.exists_cons_of_ne_nil (List.splitOnP_ne_nil isWhitespace s)
      rw [hparts, List.modifyHead_cons] at h
      rcases List.mem_cons.mp h with rfl | h
      · exact List.forall_mem_cons.mpr ⟨Bool.eq_false_iff.mpr hd, ih (hparts ▸ List.mem_cons_self)⟩
      · exact ih (hparts ▸ List.mem_cons_of_mem _ h)

theorem word_of_mem (h : u ∈ splitWhitespace s) : Word u := by
  obtain ⟨hmem, hne⟩ := List.mem_filter.mp h
  exact ⟨by simpa using hne, visible_of_mem_splitOnP hmem⟩

theorem splitWhitespace_intercalate (h : ∀ u ∈ words, Word u) : splitWhitespace ([' '].intercalate words) = words := by
  induction words with
  | nil => rfl
  | cons u words ih =>
    obtain ⟨hu, hwords⟩ := List.forall_mem_cons.mp h
    cases words with
    | nil => rw [List.intercalate_singleton, splitWhitespace_word hu]
    | cons next words =>
      rw [List.intercalate_cons_cons, List.append_assoc, List.singleton_append, splitWhitespace_append hu (by decide),
        ih hwords]

theorem splitWhitespace_collapse (s : Text) : splitWhitespace (collapse s) = splitWhitespace s :=
  splitWhitespace_intercalate fun _ hu => word_of_mem hu

theorem collapse_collapse (s : Text) : collapse (collapse s) = collapse s := by
  rw [collapse, splitWhitespace_collapse]
  rfl

theorem mem_intercalate (h : c ∈ [' '].intercalate words) : c = ' ' ∨ ∃ u ∈ words, c ∈ u := by
  induction words with
  | nil => cases h
  | cons u words ih =>
    cases words with
    | nil =>
      rw [List.intercalate_singleton] at h
      exact .inr ⟨u, List.mem_cons_self, h⟩
    | cons next words =>
      rw [List.intercalate_cons_cons, List.append_assoc, List.singleton_append, List.mem_append, List.mem_cons] at h
      rcases h with h | h | h
      · exact .inr ⟨u, List.mem_cons_self, h⟩
      · exact .inl h
      · exact (ih h).imp_right fun ⟨v, hv, hc⟩ => ⟨v, List.mem_cons_of_mem _ hv, hc⟩

theorem not_mem_collapse (hc : isWhitespace c = true) (hne : c ≠ ' ') : c ∉ collapse s := by
  intro h
  rcases mem_intercalate h with h | ⟨u, hu, h⟩
  · exact hne h
  · rw [(word_of_mem hu).visible c h] at hc
    cases hc

theorem collapse_eq_append (hu : Word u) (htail : ∀ c ∈ tail.head?, isWhitespace c = true) :
    ∃ tail', collapse (u ++ tail) = u ++ tail' ∧ ∀ c ∈ tail'.head?, isWhitespace c = true := by
  have hword : ∀ words : List Text, ∃ tail', [' '].intercalate (u :: words) = u ++ tail' ∧
      ∀ c ∈ tail'.head?, isWhitespace c = true := by
    intro words
    cases words with
    | nil => exact ⟨[], by simp, by simp⟩
    | cons next words =>
      refine ⟨' ' :: [' '].intercalate (next :: words), by simp [List.intercalate_cons_cons], fun c hc => ?_⟩
      obtain rfl : ' ' = c := Option.some.inj hc
      decide
  cases tail with
  | nil =>
    rw [List.append_nil, collapse, splitWhitespace_word hu]
    exact hword []
  | cons c rest =>
    rw [collapse, splitWhitespace_append hu (htail c rfl)]
    exact hword _

theorem Word.head (hu : Word u) : ∃ c rest, u = c :: rest ∧ isWhitespace c = false := by
  obtain ⟨c, rest, rfl⟩ := List.exists_cons_of_ne_nil hu.ne_nil
  exact ⟨c, rest, rfl, hu.visible c List.mem_cons_self⟩

theorem getLast?_intercalate (h : ∀ u ∈ words, Word u) :
    ∀ c ∈ ([' '].intercalate words).getLast?, isWhitespace c = false := by
  induction words with
  | nil => simp
  | cons u words ih =>
    obtain ⟨hu, hwords⟩ := List.forall_mem_cons.mp h
    cases words with
    | nil =>
      rw [List.intercalate_singleton]
      exact fun c hc => hu.visible c (List.mem_of_getLast? hc)
    | cons next words =>
      have hne : [' '].intercalate (next :: words) ≠ [] := by
        obtain ⟨c, rest, rfl, -⟩ := (hwords next List.mem_cons_self).head
        cases words <;> simp [List.intercalate_cons_cons]
      rw [List.intercalate_cons_cons, List.getLast?_append_of_ne_nil _ hne]
      exact ih hwords

theorem trim_collapse (s : Text) : trim (collapse s) = collapse s := by
  have hwords : ∀ u ∈ splitWhitespace s, Word u := fun u hu => word_of_mem hu
  have hlast := getLast?_intercalate hwords
  rw [collapse]
  generalize splitWhitespace s = words at hwords hlast
  have hdrop : ([' '].intercalate words).dropWhile isWhitespace = [' '].intercalate words := by
    cases words with
    | nil => rfl
    | cons u words =>
      obtain ⟨c, rest, rfl, hc⟩ := (hwords u List.mem_cons_self).head
      cases words <;> simp [List.intercalate_cons_cons, hc]
  rw [trim, hdrop, List.rdropWhile_eq_self_iff]
  intro hne
  rw [hlast _ (List.getLast?_eq_some_getLast hne)]
  simp

/-! ### Lines -/

theorem linesFrom_append (h : '\n' ∉ line) (sofar rest : Text) : linesFrom sofar (line ++ '\n' :: rest) =
    (if (sofar ++ line).getLast? = some '\r' then (sofar ++ line).dropLast else sofar ++ line) ::
      linesFrom [] rest := by
  induction line generalizing sofar with
  | nil => rw [List.nil_append, linesFrom, if_pos rfl, List.append_nil]
  | cons c line ih =>
    rw [List.mem_cons, not_or] at h
    obtain ⟨hc, hline⟩ := h
    rw [List.cons_append, linesFrom, if_neg (Ne.symm hc), ih hline, List.append_assoc, List.singleton_append]

theorem linesFrom_last (h : '\n' ∉ line) (sofar : Text) :
    linesFrom sofar line = if sofar ++ line = [] then [] else [sofar ++ line] := by
  induction line generalizing sofar with
  | nil => rw [linesFrom, List.append_nil]
  | cons c line ih =>
    rw [List.mem_cons, not_or] at h
    obtain ⟨hc, hline⟩ := h
    rw [linesFrom, if_neg (Ne.symm hc), ih hline, List.append_assoc, List.singleton_append]

/-- Lines of one's own, one below the other, are read back. -/
theorem linesFrom_intercalate (h : ∀ line ∈ lines, line ≠ [] ∧ '\n' ∉ line ∧ '\r' ∉ line) :
    linesFrom [] (['\n'].intercalate lines) = lines := by
  induction lines with
  | nil => rfl
  | cons line lines ih =>
    obtain ⟨⟨hne, hbreak, hreturn⟩, hlines⟩ := List.forall_mem_cons.mp h
    cases lines with
    | nil => rw [List.intercalate_singleton, linesFrom_last hbreak, List.nil_append, if_neg hne]
    | cons next lines =>
      have hkeep : line.getLast? ≠ some '\r' := fun hlast => hreturn (List.mem_of_getLast? hlast)
      rw [List.intercalate_cons_cons, List.append_assoc, List.singleton_append, linesFrom_append hbreak,
        List.nil_append, if_neg hkeep, ih hlines]

/-- What is read of the steps typed: each with its whitespace collapsed, without its own number. -/
theorem stepsOf_joinSteps (steps : List Text) : stepsOf ((joinSteps steps).getD []) =
    (((steps.map collapse).filter (· ≠ [])).map withoutStepNumber).filter (· ≠ []) := by
  have hread : ∀ lines : List Text, (∀ line ∈ lines, line ≠ [] ∧ ∃ s, line = collapse s) →
      stepsOf (['\n'].intercalate lines) = (lines.map withoutStepNumber).filter (· ≠ []) := by
    intro lines hlines
    have hown : ∀ line ∈ lines, line ≠ [] ∧ '\n' ∉ line ∧ '\r' ∉ line := by
      intro line hline
      obtain ⟨hne, s, rfl⟩ := hlines line hline
      exact ⟨hne, not_mem_collapse (by decide) (by decide), not_mem_collapse (by decide) (by decide)⟩
    rw [stepsOf, linesFrom_intercalate hown]
    congr 1
    refine List.map_congr_left fun line hline => ?_
    obtain ⟨-, s, rfl⟩ := hlines line hline
    rw [trim_collapse]
  have hlines : ∀ line ∈ (steps.map collapse).filter (· ≠ []), line ≠ [] ∧ ∃ s, line = collapse s := by
    intro line hline
    obtain ⟨hmem, hne⟩ := List.mem_filter.mp hline
    obtain ⟨s, -, rfl⟩ := List.mem_map.mp hmem
    exact ⟨by simpa using hne, s, rfl⟩
  rw [← hread _ hlines, joinSteps]
  split
  · rename_i hnil
    rw [hnil]
    rfl
  · rfl

/-! ### A step's own number -/

/-- Digits and a point or a bracket, before whitespace or nothing. -/
def Numbered (line : Text) : Prop :=
  ∃ digits sep rest, line = digits ++ sep :: rest ∧ digits ≠ [] ∧ (∀ c ∈ digits, c.isDigit = true) ∧
    (sep = '.' ∨ sep = ')') ∧ ∀ c ∈ rest.head?, isWhitespace c = true

theorem head?_any (rest : Text) : (rest = [] ∨ rest.head?.any isWhitespace = true) ↔
    ∀ c ∈ rest.head?, isWhitespace c = true := by
  cases rest <;> simp

theorem takeWhile_digits (hdigits : ∀ c ∈ digits, c.isDigit = true) (hsep : sep.isDigit = false) (rest : Text) :
    (digits ++ sep :: rest).takeWhile Char.isDigit = digits ∧
      (digits ++ sep :: rest).dropWhile Char.isDigit = sep :: rest := by
  rw [List.takeWhile_append_of_pos hdigits, List.dropWhile_append_of_pos hdigits,
    List.takeWhile_cons_of_neg (by simp [hsep]), List.dropWhile_cons_of_neg (by simp [hsep]), List.append_nil]
  exact ⟨rfl, rfl⟩

/-- At most its own number is taken off a step. -/
theorem withoutStepNumber_spec (line : Text) : (¬Numbered line ∧ withoutStepNumber line = line) ∨
    ∃ digits sep rest, line = digits ++ sep :: rest ∧ digits ≠ [] ∧ (∀ c ∈ digits, c.isDigit = true) ∧
      (sep = '.' ∨ sep = ')') ∧ (∀ c ∈ rest.head?, isWhitespace c = true) ∧
      withoutStepNumber line = trimStart rest := by
  by_cases h : Numbered line
  · obtain ⟨digits, sep, rest, rfl, hne, hdigits, hsep, hrest⟩ := h
    refine .inr ⟨digits, sep, rest, rfl, hne, hdigits, hsep, hrest, ?_⟩
    have hnot : sep.isDigit = false := by rcases hsep with rfl | rfl <;> decide
    obtain ⟨htake, hdrop⟩ := takeWhile_digits hdigits hnot rest
    rw [withoutStepNumber, htake, hdrop, if_neg hne]
    exact if_pos ⟨hsep, (head?_any rest).mpr hrest⟩
  · refine .inl ⟨h, ?_⟩
    rw [withoutStepNumber]
    split
    · rfl
    · rename_i hne
      split
      · rfl
      · rename_i c after hdrop
        refine if_neg fun hstop => h ⟨_, c, after, ?_, hne, fun d hd => List.mem_takeWhile_imp hd, hstop.1,
          (head?_any after).mp hstop.2⟩
        rw [← hdrop, List.takeWhile_append_dropWhile]

theorem withoutStepNumber_eq_self (h : ¬Numbered line) : withoutStepNumber line = line := by
  rcases withoutStepNumber_spec line with ⟨-, heq⟩ | ⟨digits, sep, rest, heq, hne, hdigits, hsep, hrest, -⟩
  · exact heq
  · exact absurd ⟨digits, sep, rest, heq, hne, hdigits, hsep, hrest⟩ h

/-! ### The steps shown, stored again -/

/-- A word that is a step's own number. -/
def NumberWord (u : Text) : Prop :=
  ∃ digits sep, u = digits ++ [sep] ∧ digits ≠ [] ∧ (∀ c ∈ digits, c.isDigit = true) ∧ (sep = '.' ∨ sep = ')')

theorem takeWhile_word (hu : Word u) (htail : ∀ c ∈ tail.head?, isWhitespace c = true) :
    (u ++ tail).takeWhile (fun c => !isWhitespace c) = u ∧ (u ++ tail).dropWhile (fun c => !isWhitespace c) = tail := by
  have hvisible : ∀ c ∈ u, (!isWhitespace c) = true := fun c hc => by simp [hu.visible c hc]
  rw [List.takeWhile_append_of_pos hvisible, List.dropWhile_append_of_pos hvisible]
  cases tail with
  | nil => simp
  | cons c rest =>
    have hc : isWhitespace c = true := htail c rfl
    simp [hc]

theorem word_of_numberWord (h : NumberWord u) : Word u := by
  obtain ⟨digits, sep, rfl, hne, hdigits, hsep⟩ := h
  refine ⟨by simp, fun c hc => ?_⟩
  rcases List.mem_append.mp hc with hc | hc
  · have hdigit := hdigits c hc
    rw [Char.isDigit, Bool.and_eq_true, decide_eq_true_iff, decide_eq_true_iff] at hdigit
    have hlo : 48 ≤ c.toNat := UInt32.le_iff_toNat_le.mp hdigit.1
    have hhi : c.toNat ≤ 57 := UInt32.le_iff_toNat_le.mp hdigit.2
    rw [isWhitespace, decide_eq_false_iff_not]
    omega
  · rw [List.mem_singleton.mp hc]
    rcases hsep with rfl | rfl <;> decide

theorem numbered_append (hu : Word u) (htail : ∀ c ∈ tail.head?, isWhitespace c = true) :
    Numbered (u ++ tail) ↔ NumberWord u := by
  constructor
  · rintro ⟨digits, sep, rest, heq, hne, hdigits, hsep, hrest⟩
    have hnumber : NumberWord (digits ++ [sep]) := ⟨digits, sep, rfl, hne, hdigits, hsep⟩
    have hfirst := (takeWhile_word (word_of_numberWord hnumber) hrest).1
    rw [List.append_assoc, List.singleton_append, ← heq, (takeWhile_word hu htail).1] at hfirst
    exact hfirst ▸ hnumber
  · rintro ⟨digits, sep, rfl, hne, hdigits, hsep⟩
    exact ⟨digits, sep, tail, by simp, hne, hdigits, hsep, htail⟩

/-- A step shown starts with a visible character. -/
theorem head_of_mem_stepsOf {t : Text} (h : s ∈ stepsOf t) : s ≠ [] ∧ ∀ c ∈ s.head?, isWhitespace c = false := by
  obtain ⟨hmem, hne⟩ := List.mem_filter.mp h
  obtain ⟨line, -, rfl⟩ := List.mem_map.mp hmem
  refine ⟨by simpa using hne, head_visible ?_⟩
  rcases withoutStepNumber_spec (trim line) with ⟨-, heq⟩ | ⟨digits, sep, rest, -, -, -, -, -, heq⟩
  · rw [heq, dropWhile_trim]
  · rw [heq, trimStart]
    exact List.dropWhile_idempotent (p := isWhitespace) rest

theorem exists_word (hne : s ≠ []) (hhead : ∀ c ∈ s.head?, isWhitespace c = false) :
    ∃ u tail, s = u ++ tail ∧ Word u ∧ ∀ c ∈ tail.head?, isWhitespace c = true := by
  refine ⟨s.takeWhile (fun c => !isWhitespace c), s.dropWhile (fun c => !isWhitespace c),
    List.takeWhile_append_dropWhile.symm, ⟨?_, fun c hc => by simpa using List.mem_takeWhile_imp hc⟩, fun c hc => ?_⟩
  · obtain ⟨c, rest, rfl⟩ := List.exists_cons_of_ne_nil hne
    have hc : isWhitespace c = false := hhead c rfl
    simp [hc]
  · have hnot := List.head?_dropWhile_not (fun c => !isWhitespace c) s
    rw [hc] at hnot
    simpa using hnot

/-- The steps shown, none of them starting with another number, are read back with their whitespace collapsed. -/
theorem stepsOf_again (t : Text) (h : ∀ s ∈ stepsOf t, ¬Numbered s) :
    stepsOf ((joinSteps (stepsOf t)).getD []) = (stepsOf t).map collapse := by
  have hstep : ∀ s ∈ stepsOf t, collapse s ≠ [] ∧ withoutStepNumber (collapse s) = collapse s := by
    intro s hs
    obtain ⟨hne, hhead⟩ := head_of_mem_stepsOf hs
    obtain ⟨u, tail, rfl, hu, htail⟩ := exists_word hne hhead
    obtain ⟨tail', heq, htail'⟩ := collapse_eq_append hu htail
    have hnot : ¬Numbered (collapse (u ++ tail)) := by
      rw [heq, numbered_append hu htail']
      exact fun hnumber => h _ hs ((numbered_append hu htail).mpr hnumber)
    refine ⟨?_, withoutStepNumber_eq_self hnot⟩
    rw [heq]
    exact fun hnil => hu.ne_nil (List.append_eq_nil_iff.mp hnil).1
  have hfilter : ((stepsOf t).map collapse).filter (· ≠ []) = (stepsOf t).map collapse :=
    List.filter_eq_self.mpr fun line hline => by
      obtain ⟨s, hs, rfl⟩ := List.mem_map.mp hline
      simpa using (hstep s hs).1
  have hnumber : ((stepsOf t).map collapse).map withoutStepNumber = (stepsOf t).map collapse := by
    rw [List.map_map]
    exact List.map_congr_left fun s hs => (hstep s hs).2
  rw [stepsOf_joinSteps, hfilter, hnumber, hfilter]

end Home.Recipes
