import Mathlib.Data.List.MinMax
import Mathlib.Data.Prod.Lex
import Mathlib.Order.WithBot
import ManageOurHome.Text

/-! @src apps/shared/src/validation/stocks.rs | layer:model | family:stocks

    What the API and the web share of the stocks: the bounds of a quantity, the unit stored for what was
    typed, and the line a received article merges into. Names and units are compared on their key,
    trimmed and lowercased; `lowercase` is `str::to_lowercase`. `U` is the type of ids, a date its
    number of days since the epoch. -/

namespace Home.Stocks

/-- The largest quantity a stock line may carry. -/
def MAX_QUANTITY : ℚ := 1000000000

/-- The unit an article gets when none is typed. -/
def DEFAULT_UNIT : Text := ['u', 'n', 'i', 't', 'é']

/-- The unit to store for what the user typed. -/
def normalizeUnit (raw : Text) : Text :=
  let unit := trim raw
  if unit = [] then DEFAULT_UNIT else unit

inductive ReceptionMode where
  | Merge | New
  deriving DecidableEq, Repr

/-- A stock line a received article could be merged into. -/
structure StockCandidate (U : Type*) where
  id : U
  name : Text
  unit : Text
  expiresOn : Option ℤ
  deriving DecidableEq

variable {U : Type*} (lowercase : Text → Text)

/-- The key two names, or two units, are compared on. -/
def articleKey (raw : Text) : Text := lowercase (trim raw)

/-- Whether a line can take the article: same name, same unit, and no date other than its own typed. -/
def eligible (name unit : Text) (expiresOn : Option ℤ) (c : StockCandidate U) : Bool :=
  articleKey lowercase c.name = articleKey lowercase name ∧
    articleKey lowercase c.unit = articleKey lowercase unit ∧
    (expiresOn = none ∨ c.expiresOn = expiresOn)

/-- Dates compare as numbers do, computably. -/
local instance dateOrder : Preorder ℤ := Int.instLinearOrder.toPreorder

/-- What the eligible lines are chosen on: the same date, then the earliest, then the smallest id. -/
def mergeKey (expiresOn : Option ℤ) (c : StockCandidate U) : Bool ×ₗ WithBot ℤ ×ₗ U :=
  toLex (decide (c.expiresOn ≠ expiresOn), toLex (c.expiresOn, c.id))

/-- The stock line a received article merges into by default. -/
def mergeTarget [LinearOrder U] (name unit : Text) (expiresOn : Option ℤ)
    (candidates : List (StockCandidate U)) : Option U :=
  ((candidates.filter (eligible lowercase name unit expiresOn)).argmin (mergeKey expiresOn)).map
    StockCandidate.id

variable {lowercase}

@[simp] theorem normalizeUnit_trim (raw : Text) : normalizeUnit (trim raw) = normalizeUnit raw := by
  rw [normalizeUnit, normalizeUnit, trim_trim]

@[simp] theorem articleKey_trim (raw : Text) :
    articleKey lowercase (trim raw) = articleKey lowercase raw := by
  rw [articleKey, articleKey, trim_trim]

theorem eligible_iff {name unit : Text} {expiresOn : Option ℤ} {c : StockCandidate U} :
    eligible lowercase name unit expiresOn c = true ↔
      articleKey lowercase c.name = articleKey lowercase name ∧
        articleKey lowercase c.unit = articleKey lowercase unit ∧
        (expiresOn = none ∨ c.expiresOn = expiresOn) := decide_eq_true_iff

section

variable [LinearOrder U] {name name' unit unit' : Text} {expiresOn : Option ℤ}
  {candidates candidates' : List (StockCandidate U)}

/-- The line chosen: an eligible one, first on the key, which its id makes unique. -/
theorem mergeTarget_eq_some {id : U} :
    mergeTarget lowercase name unit expiresOn candidates = some id ↔
      ∃ c ∈ candidates, c.id = id ∧ eligible lowercase name unit expiresOn c = true ∧
        ∀ c' ∈ candidates, eligible lowercase name unit expiresOn c' = true →
          mergeKey expiresOn c ≤ mergeKey expiresOn c' := by
  have hspec : ∀ {c}, (candidates.filter (eligible lowercase name unit expiresOn)).argmin
      (mergeKey expiresOn) = some c → c ∈ candidates ∧
        eligible lowercase name unit expiresOn c = true ∧
        ∀ c' ∈ candidates, eligible lowercase name unit expiresOn c' = true →
          mergeKey expiresOn c ≤ mergeKey expiresOn c' := fun hc => by
    have hmem := List.mem_filter.mp (List.argmin_mem hc)
    exact ⟨hmem.1, hmem.2, fun c' hc' helig =>
      List.le_of_mem_argmin (List.mem_filter.mpr ⟨hc', helig⟩) hc⟩
  rw [mergeTarget, Option.map_eq_some_iff]
  constructor
  · rintro ⟨c, hc, rfl⟩
    obtain ⟨hmem, helig, hmin⟩ := hspec hc
    exact ⟨c, hmem, rfl, helig, hmin⟩
  · rintro ⟨c, hmem, rfl, helig, hmin⟩
    rcases hc' : (candidates.filter (eligible lowercase name unit expiresOn)).argmin
      (mergeKey expiresOn) with _ | c'
    · rw [List.argmin_eq_none, List.filter_eq_nil_iff] at hc'
      exact absurd helig (hc' c hmem)
    · obtain ⟨hmem', helig', hmin'⟩ := hspec hc'
      have hkey := toLex.injective (le_antisymm (hmin' c hmem helig) (hmin c' hmem' helig'))
      have hrest := toLex.injective (Prod.mk.inj hkey).2
      exact ⟨c', rfl, (Prod.mk.inj hrest).2⟩

/-- The line chosen is eligible. -/
theorem mergeTarget_spec {id : U} (h : mergeTarget lowercase name unit expiresOn candidates = some id) :
    ∃ c ∈ candidates, c.id = id ∧ eligible lowercase name unit expiresOn c = true := by
  obtain ⟨c, hmem, hid, helig, _⟩ := mergeTarget_eq_some.mp h
  exact ⟨c, hmem, hid, helig⟩

/-- Two candidates the choice cannot tell apart. -/
structure StockCandidate.Same (lowercase : Text → Text) (c c' : StockCandidate U) : Prop where
  id : c.id = c'.id
  name : articleKey lowercase c.name = articleKey lowercase c'.name
  unit : articleKey lowercase c.unit = articleKey lowercase c'.unit
  expiresOn : c.expiresOn = c'.expiresOn

/-- Two sets of candidates the choice cannot tell apart. -/
structure SameCandidates (lowercase : Text → Text) (cs cs' : List (StockCandidate U)) : Prop where
  left : ∀ c ∈ cs, ∃ c' ∈ cs', c.Same lowercase c'
  right : ∀ c' ∈ cs', ∃ c ∈ cs, c.Same lowercase c'

omit [LinearOrder U] in
theorem SameCandidates.concat {cs cs' : List (StockCandidate U)} {c c' : StockCandidate U}
    (h : SameCandidates lowercase cs cs') (hc : c.Same lowercase c') :
    SameCandidates lowercase (cs ++ [c]) (cs' ++ [c']) := by
  refine ⟨fun x hx => ?_, fun x hx => ?_⟩
  · rcases List.mem_append.mp hx with hx | hx
    · obtain ⟨y, hy, hxy⟩ := h.left x hx
      exact ⟨y, List.mem_append_left _ hy, hxy⟩
    · rw [List.mem_singleton.mp hx]
      exact ⟨c', List.mem_append_right _ List.mem_cons_self, hc⟩
  · rcases List.mem_append.mp hx with hx | hx
    · obtain ⟨y, hy, hxy⟩ := h.right x hx
      exact ⟨y, List.mem_append_left _ hy, hxy⟩
    · rw [List.mem_singleton.mp hx]
      exact ⟨c, List.mem_append_right _ List.mem_cons_self, hc⟩

omit [LinearOrder U] in
theorem SameCandidates.refl (cs : List (StockCandidate U)) : SameCandidates lowercase cs cs :=
  ⟨fun c hc => ⟨c, hc, rfl, rfl, rfl, rfl⟩, fun c hc => ⟨c, hc, rfl, rfl, rfl, rfl⟩⟩

/-- The choice depends on the keys, the dates and the ids, and not on the order. -/
theorem mergeTarget_congr (h : SameCandidates lowercase candidates candidates')
    (hname : articleKey lowercase name = articleKey lowercase name')
    (hunit : articleKey lowercase unit = articleKey lowercase unit') :
    mergeTarget lowercase name unit expiresOn candidates =
      mergeTarget lowercase name' unit' expiresOn candidates' := by
  have helig : ∀ {c c' : StockCandidate U}, c.Same lowercase c' →
      (eligible lowercase name unit expiresOn c = true ↔
        eligible lowercase name' unit' expiresOn c' = true) := fun hs => by
    rw [eligible_iff, eligible_iff, hs.name, hs.unit, hs.expiresOn, hname, hunit]
  have hkey : ∀ {c c' : StockCandidate U}, c.Same lowercase c' →
      mergeKey expiresOn c = mergeKey expiresOn c' := fun hs => by
    rw [mergeKey, mergeKey, hs.id, hs.expiresOn]
  refine Option.ext fun id => ?_
  rw [mergeTarget_eq_some, mergeTarget_eq_some]
  constructor
  · rintro ⟨c, hmem, rfl, he, hmin⟩
    obtain ⟨c', hmem', hs⟩ := h.left c hmem
    refine ⟨c', hmem', hs.id.symm, (helig hs).mp he, fun d' hd' he' => ?_⟩
    obtain ⟨d, hd, hsd⟩ := h.right d' hd'
    rw [← hkey hs, ← hkey hsd]
    exact hmin d hd ((helig hsd).mpr he')
  · rintro ⟨c', hmem', rfl, he', hmin⟩
    obtain ⟨c, hmem, hs⟩ := h.right c' hmem'
    refine ⟨c, hmem, hs.id, (helig hs).mpr he', fun d hd he => ?_⟩
    obtain ⟨d', hd', hsd⟩ := h.left d hd
    rw [hkey hs, hkey hsd]
    exact hmin d' hd' ((helig hsd).mp he)

/-- The choice depends on what the lines are, not on their order. -/
theorem mergeTarget_perm (h : candidates.Perm candidates') :
    mergeTarget lowercase name unit expiresOn candidates =
      mergeTarget lowercase name unit expiresOn candidates' :=
  mergeTarget_congr ⟨fun c hc => ⟨c, h.mem_iff.mp hc, rfl, rfl, rfl, rfl⟩,
    fun c hc => ⟨c, h.mem_iff.mpr hc, rfl, rfl, rfl, rfl⟩⟩ rfl rfl

end

end Home.Stocks
