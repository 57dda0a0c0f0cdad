import ManageOurHome.Recipes.IngredientRead

/-! @src apps/api/src/recipes/ingredient_line.rs | layer:proof | family:recipe import

    The unit of a line is the longest spelling that stands at its head: one that ends at a space, a comma, a semicolon or
    the end, or with a point of its own.

        3 gousses (hachées)   gousse + s          2 c. à soupe d'huile   c. à soupe          2 clous   no unit -/

namespace Home.Recipes.IngredientLine

open Utf8 (size)

variable {lowercase : Char → Text} {rest after : Text} {s : Spelling}

/-- A unit may end before it. -/
def Boundary (after : Text) : Prop := ∀ c ∈ after.head?, isWhitespace c = true ∨ c = ',' ∨ c = ';'

variable (lowercase) in
/-- A spelling, with its plural ending, stands at the head of a text. -/
structure Stands (rest : Text) (s : Spelling) (after : Text) : Prop where
  spelled : (without lowercase s.spelling rest).map (fun a => if s.plural then afterPlural a else a) = some after
  bounded : s.spelling.getLast? = some '.' ∨ Boundary after

variable (lowercase) in
/-- No spelling among `known` stands there, or the longest does. -/
def Longest (rest : Text) (known : List Spelling) : Best → Prop
  | none => ∀ s ∈ known, ∀ after, ¬Stands lowercase rest s after
  | some (length, unit, after) => length = size rest - size after ∧
      (∃ s ∈ known, s.unit = unit ∧ Stands lowercase rest s after) ∧
      ∀ s ∈ known, ∀ after', Stands lowercase rest s after' → size rest - size after' ≤ length

theorem size_le_of_suffix {s t : Text} (h : s <:+ t) : size s ≤ size t := by
  obtain ⟨u, rfl⟩ := h
  rw [Utf8.size_append]
  exact Nat.le_add_left _ _

theorem afterPlural_suffix (after : Text) : afterPlural after <:+ after := by
  rw [afterPlural]
  rcases h : ["(s)".toList, ['s'], ['x']].findSome? fun ending => stripPrefix ending after with - | rest
  · exact List.suffix_rfl
  · obtain ⟨ending, -, hstrip⟩ := List.exists_of_findSome?_eq_some h
    exact ⟨ending, (stripPrefix_eq_some.mp hstrip).symm⟩

theorem Stands.suffix (h : Stands lowercase rest s after) : after <:+ rest := by
  obtain ⟨a, ha, rfl⟩ := Option.map_eq_some_iff.mp h.spelled
  split
  · exact (afterPlural_suffix a).trans (without_suffix ha)
  · exact without_suffix ha

theorem ends_iff : (s.spelling.getLast? = some '.' || after = [] ||
    after.head?.any fun c => isWhitespace c || c = ',' || c = ';') = true ↔
      s.spelling.getLast? = some '.' ∨ Boundary after := by
  cases after with
  | nil => simp [Boundary]
  | cons c after => simp [Boundary, or_assoc]

/-- A spelling that does not stand there, or is no longer than another, changes nothing. -/
theorem Longest.keep {known : List Spelling} {best : Best} (h : Longest lowercase rest known best)
    (hs : ∀ after, Stands lowercase rest s after → best.any fun b => size rest - size after ≤ b.1) :
    Longest lowercase rest (known ++ [s]) best := by
  rcases best with - | ⟨length, unit, after⟩
  · intro s' hs' after hstands
    rcases List.mem_append.mp hs' with hknown | hnew
    · exact h s' hknown after hstands
    · obtain rfl := List.mem_singleton.mp hnew
      cases hs after hstands
  · obtain ⟨hlength, ⟨s₀, hs₀, hstands₀⟩, hlongest⟩ := h
    refine ⟨hlength, ⟨s₀, List.mem_append_left _ hs₀, hstands₀⟩, fun s' hs' after' hstands => ?_⟩
    rcases List.mem_append.mp hs' with hknown | hnew
    · exact hlongest s' hknown after' hstands
    · obtain rfl := List.mem_singleton.mp hnew
      simpa using hs after' hstands

/-- One that stands, and is longer than any before, is the longest. -/
theorem Longest.take {known : List Spelling} {best : Best} (h : Longest lowercase rest known best)
    (hs : Stands lowercase rest s after) (hlonger : ∀ b ∈ best, b.1 < size rest - size after) :
    Longest lowercase rest (known ++ [s]) (some (size rest - size after, s.unit, after)) := by
  refine ⟨rfl, ⟨s, by simp, rfl, hs⟩, fun s' hs' after' hstands => ?_⟩
  rcases List.mem_append.mp hs' with hknown | hnew
  · rcases best with - | ⟨length, unit, after₀⟩
    · exact absurd hstands (h s' hknown after')
    · exact (h.2.2 s' hknown after' hstands).trans (hlonger _ rfl).le
  · obtain rfl := List.mem_singleton.mp hnew
    have heq : some after' = some after := hstands.spelled.symm.trans hs.spelled
    rw [Option.some.inj heq]

theorem consider_longest {known : List Spelling} {best : Best} (h : Longest lowercase rest known best) (s : Spelling) :
    ∃ best', consider lowercase rest best s = some best' ∧ Longest lowercase rest (known ++ [s]) best' := by
  rw [consider, stripPrefixCi_eq, Option.map_some]
  rcases hw : without lowercase s.spelling rest with - | a
  · refine ⟨best, rfl, h.keep fun after hstands => ?_⟩
    have hspelled := hstands.spelled
    rw [hw] at hspelled
    cases hspelled
  · have hspelled : (without lowercase s.spelling rest).map (fun a => if s.plural then afterPlural a else a) =
        some (if s.plural then afterPlural a else a) := by rw [hw, Option.map_some]
    refine ⟨_, rfl, ?_⟩
    dsimp only
    generalize (if s.plural then afterPlural a else a) = after at hspelled
    split
    · rename_i htaken
      obtain ⟨hends, hlonger⟩ := Bool.and_eq_true_iff.mp htaken
      refine h.take ⟨hspelled, ends_iff.mp hends⟩ ?_
      rintro b rfl
      simpa using hlonger
    · rename_i hkept
      refine h.keep fun after' hstands => ?_
      obtain rfl := Option.some.inj (hstands.spelled.symm.trans hspelled)
      rw [ends_iff.mpr hstands.bounded, Bool.true_and] at hkept
      cases best with
      | none => exact absurd rfl hkept
      | some b => simpa using hkept

theorem longest_nil (lowercase : Char → Text) (rest : Text) : Longest lowercase rest [] none := fun _ h => by cases h

theorem foldlM_longest {known : List Spelling} {best : Best} (h : Longest lowercase rest known best)
    (ss : List Spelling) : ∃ best', ss.foldlM (consider lowercase rest) best = some best' ∧
      Longest lowercase rest (known ++ ss) best' := by
  induction ss generalizing known best with
  | nil => exact ⟨best, rfl, by rwa [List.append_nil]⟩
  | cons s ss ih =>
    obtain ⟨best', hbest, hlongest⟩ := consider_longest h s
    obtain ⟨best'', hfold, hall⟩ := ih hlongest
    refine ⟨best'', ?_, by rwa [List.append_assoc] at hall⟩
    rw [List.foldlM_cons, hbest]
    exact hfold

variable (lowercase) in
/-- The unit at the head of a text, if one stands there, and what follows it. -/
structure UnitAt (rest : Text) (found : Option (Text × Text)) : Prop where
  absent : found = none → ∀ s ∈ spellings, ∀ after, ¬Stands lowercase rest s after
  present : ∀ unit after, found = some (unit, after) →
    (∃ s ∈ spellings, s.unit = unit ∧ Stands lowercase rest s after) ∧
      ∀ s ∈ spellings, ∀ after', Stands lowercase rest s after' → size after ≤ size after'

variable (lowercase) in
theorem unit_found (rest : Text) : ∃ found, unit lowercase rest = some found ∧ UnitAt lowercase rest found := by
  obtain ⟨best, hfold, hlongest⟩ := foldlM_longest (longest_nil lowercase rest) spellings
  refine ⟨best.map Prod.snd, by rw [unit, hfold, Option.map_some], ?_, ?_⟩
  · intro hnone
    rw [Option.map_eq_none_iff.mp hnone] at hlongest
    exact hlongest
  · intro unit after hsome
    obtain ⟨⟨length, _, _⟩, rfl, heq⟩ := Option.map_eq_some_iff.mp hsome
    obtain ⟨rfl, rfl⟩ := Prod.mk.inj heq
    obtain ⟨rfl, ⟨s, hs, hunit, hstands⟩, hlongest⟩ := hlongest
    refine ⟨⟨s, hs, hunit, hstands⟩, fun s' hs' after' hstands' => ?_⟩
    have hle := hlongest s' hs' after' hstands'
    have hsize := size_le_of_suffix hstands.suffix
    have hsize' := size_le_of_suffix hstands'.suffix
    omega

/-! ### No unit at the end -/

theorem spelling_ne_nil (hs : s ∈ spellings) : s.spelling ≠ [] := by
  have hlist : ∀ {w : String}, w ≠ "" → w.toList ≠ [] := fun h hnil => h (String.toList_eq_nil_iff.mp hnil)
  rcases List.mem_append.mp hs with hunit | hspoon
  · obtain ⟨u, hu, hs⟩ := List.mem_flatMap.mp hunit
    obtain ⟨w, hw, rfl⟩ := List.mem_map.mp hs
    have hunits : ∀ u ∈ UNITS, ∀ w ∈ u.1, w ≠ "" := by decide
    exact hlist (hunits u hu w hw)
  · obtain ⟨⟨w, unit⟩, hw, rfl⟩ := List.mem_map.mp hspoon
    refine hlist ?_
    rcases List.mem_append.mp hw with hlong | hshort
    · simp only [List.mem_flatMap, List.mem_map] at hlong
      obtain ⟨_, -, head, hhead, _, -, _, -, heq⟩ := hlong
      have hheads : ∀ head ∈ ["cuillères", "cuillère", "cuilleres", "cuillere", "cuillerées", "cuillerée", "cuil.",
          "cuil", "c.", "c"], head ≠ "" := by decide
      obtain rfl := (Prod.mk.inj heq).1
      intro hnil
      have happend := congrArg String.toList hnil
      rw [String.toList_append, String.toList_append, List.append_assoc] at happend
      exact hlist (hheads head hhead) (List.append_eq_nil_iff.mp happend).1
    · have hcompact : ∀ p ∈ [("càs", "c. à soupe"), ("cs", "c. à soupe"), ("càc", "c. à café"), ("cc", "c. à café")],
          p.1 ≠ "" := by decide
      exact hcompact (w, unit) hshort

theorem unit_nil (lowercase : Char → Text) : unit lowercase [] = some none := by
  obtain ⟨found, hunit, hat⟩ := unit_found lowercase []
  rw [hunit]
  rcases found with - | ⟨unit, after⟩
  · rfl
  · obtain ⟨⟨s, hs, -, hstands⟩, -⟩ := hat.present unit after rfl
    obtain ⟨c, pat, hpat⟩ := List.exists_cons_of_ne_nil (spelling_ne_nil hs)
    have hspelled := hstands.spelled
    rw [hpat] at hspelled
    cases hspelled

end Home.Recipes.IngredientLine
