import Mathlib.Algebra.Order.Ring.Unbundled.Rat
import Mathlib.Data.List.Forall2
import ManageOurHome.Stocks.Reception

/-! @src apps/web/src/routes/grocery_list/reception.rs | layer:model+proof | family:stocks

    The reception form, checked line by line before its lot is sent. `checkLine` replays the API's plan
    with what the form alone has: lines left out, lines in error that make a new line all the same,
    and dates that do not read, whose lines are held apart. `parseF64` and `parseDate` are the parsers of
    `f64` and `NaiveDate`.

        lines    lait   œufs (quantité « x »)   œufs (merge)   pain (exclu)
        errors   —      QuantityMustBePositive  —              —
        web      New    New, not sent           merge, found   not sent -/

namespace Home.Stocks

variable {U : Type*}

/-- One line of the form, as submitted: every field is the text of its input. -/
structure FormLine (U : Type*) where
  groceryItemId : U
  name : Text
  quantity : Text
  unit : Text
  expiresOn : Text
  mode : Option ReceptionMode
  excluded : Bool

/-- What stops a line from being received as typed. -/
inductive LineError where
  | QuantityMustBePositive | QuantityTooLarge | InvalidDate | NoStockToMerge
  deriving DecidableEq, Repr

/-- Why the lot is not sent. -/
inductive LotError where
  /-- One entry per line, `some` on the lines in error. -/
  | Lines (errors : List (Option LineError))
  | NothingToReceive
  deriving DecidableEq

/-- `validate_lines`' loop state. `targets` is what the code finds for each line it sends, and forgets:
    the line it merges into, or none for a line of its own. -/
structure Checking (U : Type*) where
  candidates : List (StockCandidate U)
  undatedInError : List (StockCandidate U)
  errors : List (Option LineError)
  lot : List (ReceivedItem U)
  targets : List (Option U)

/-- The line as a candidate for the lines after it. -/
def FormLine.candidate (line : FormLine U) (expiresOn : Option ℤ) : StockCandidate U :=
  ⟨line.groceryItemId, line.name, normalizeUnit line.unit, expiresOn⟩

variable [LinearOrder U] (lowercase : Text → Text) (parseF64 : Text → Option F64)
  (parseDate : Text → Option ℤ)

/-- The quantity typed. -/
def readQuantity (text : Text) : Except LineError ℚ :=
  match parseF64 (trim text) with
  | some (.finite q) =>
    if MAX_QUANTITY < q then .error .QuantityTooLarge
    else if 0 < q then .ok q
    else .error .QuantityMustBePositive
  | some _ => .error .QuantityTooLarge
  | none => .error .QuantityMustBePositive

/-- The date typed, if any. -/
def readDate (text : Text) : Except LineError (Option ℤ) :=
  if trim text = [] then .ok none
  else match parseDate (trim text) with
    | some d => .ok (some d)
    | none => .error .InvalidDate

/-- Whether the line makes a line of its own, from its mode and the line it could merge into. -/
def FormLine.newLine (line : FormLine U) (target : Option U) : Bool :=
  match line.mode with
  | some .Merge => false
  | some .New => true
  | none => target.isNone

/-- The line as it is sent. -/
def FormLine.item (line : FormLine U) (quantity : ℚ) (expiresOn : Option ℤ) : ReceivedItem U :=
  ⟨line.groceryItemId, none, some (.finite quantity), some (trim line.unit), expiresOn, line.mode⟩

/-- `validate_lines`' loop body. -/
def checkLine (s : Checking U) (line : FormLine U) : Checking U :=
  if line.excluded then { s with errors := s.errors ++ [none] }
  else
    let quantity := readQuantity parseF64 line.quantity
    match readDate parseDate line.expiresOn with
    | .error e =>
      let undated := if line.mode ≠ some .Merge then [line.candidate none] else []
      let error := match quantity with
        | .error e' => e'
        | .ok _ => e
      { s with
        undatedInError := s.undatedInError ++ undated
        errors := s.errors ++ [some error] }
    | .ok expiresOn =>
      let target := mergeTarget lowercase line.name (normalizeUnit line.unit) expiresOn s.candidates
      let newLine := line.newLine target
      let candidates := s.candidates ++ if newLine then [line.candidate expiresOn] else []
      match quantity with
      | .error e => { s with candidates := candidates, errors := s.errors ++ [some e] }
      | .ok q =>
        if line.mode = some .Merge ∧ target = none then
          -- a line whose date does not read yet may be the one: checked again once it is corrected
          let pending := mergeTarget lowercase line.name (normalizeUnit line.unit) none s.undatedInError
          let error := if pending = none then some .NoStockToMerge else none
          { s with candidates := candidates, errors := s.errors ++ [error] }
        else
          { s with
            candidates := candidates
            errors := s.errors ++ [none]
            lot := s.lot ++ [line.item q expiresOn]
            targets := s.targets ++ [if newLine then none else target] }

/-- The lines checked, on the family's stock. -/
def checkLines (lines : List (FormLine U)) (stock : List (StockCandidate U)) : Checking U :=
  lines.foldl (checkLine lowercase parseF64 parseDate) ⟨stock, [], [], [], []⟩

/-- Checks the lines the way the API will, and builds the lot from those not left out. -/
def validateLines (lines : List (FormLine U)) (stock : List (StockCandidate U)) :
    Except LotError (List (ReceivedItem U)) :=
  let s := checkLines lowercase parseF64 parseDate lines stock
  if s.errors.any Option.isSome then .error (.Lines s.errors)
  else if s.lot = [] then .error .NothingToReceive
  else .ok s.lot

/-! ### What the API is asked -/

/-- The item a line is sent as: its quantity within bounds, its date one that reads. -/
def FormLine.Sends (line : FormLine U) (item : ReceivedItem U) : Prop :=
  ∃ q expiresOn, parseF64 (trim line.quantity) = some (.finite q) ∧ 0 < q ∧ q ≤ MAX_QUANTITY ∧
    (if trim line.expiresOn = [] then expiresOn = none
      else parseDate (trim line.expiresOn) = expiresOn ∧ expiresOn.isSome) ∧
    item = line.item q expiresOn

/-- The grocery item a line was made from: found under its id, with its name, which is not blank. -/
def FormLine.Names (line : FormLine U) (groceries : List (GroceryLine U)) : Prop :=
  ∃ grocery, groceries.find? (fun g => g.id = line.groceryItemId) = some grocery ∧
    trim line.name = trim grocery.name ∧ trim grocery.name ≠ []

/-- The line an article goes to, as a candidate's id: none for a line of its own. -/
def Target.line (articles : List (Article U)) : Target U → Option U
  | .New => none
  | .Stock id => some id
  | .Lot i => articles[i]?.map Article.groceryItemId

variable {lowercase parseF64 parseDate} {line : FormLine U} {groceries : List (GroceryLine U)}

theorem readQuantity_ok_iff {text : Text} {q : ℚ} :
    readQuantity parseF64 text = .ok q ↔
      parseF64 (trim text) = some (.finite q) ∧ 0 < q ∧ q ≤ MAX_QUANTITY := by
  rcases hparse : parseF64 (trim text) with _ | q' | _ | _
  · simp [readQuantity, hparse]
  · rw [readQuantity, hparse]
    by_cases hmax : MAX_QUANTITY < q'
    · simp only [if_pos hmax, reduceCtorEq, Option.some.injEq, F64.finite.injEq, false_iff]
      rintro ⟨rfl, _, hle⟩
      exact absurd hmax hle.not_gt
    · by_cases hpos : 0 < q'
      · simp only [if_neg hmax, if_pos hpos, Except.ok.injEq, Option.some.injEq, F64.finite.injEq]
        constructor
        · rintro rfl
          exact ⟨rfl, hpos, not_lt.mp hmax⟩
        · exact fun h => h.1
      · simp only [if_neg hmax, if_neg hpos, reduceCtorEq, Option.some.injEq, F64.finite.injEq,
          false_iff]
        rintro ⟨rfl, h, _⟩
        exact hpos h
  · simp [readQuantity, hparse]
  · simp [readQuantity, hparse]

theorem readDate_ok_iff {text : Text} {expiresOn : Option ℤ} :
    readDate parseDate text = .ok expiresOn ↔
      if trim text = [] then expiresOn = none
      else parseDate (trim text) = expiresOn ∧ expiresOn.isSome := by
  by_cases hblank : trim text = []
  · rw [readDate, if_pos hblank, if_pos hblank, Except.ok.injEq]
    exact eq_comm
  · rw [readDate, if_neg hblank, if_neg hblank]
    rcases hparse : parseDate (trim text) with _ | d
    · simp only [reduceCtorEq, false_iff]
      rintro ⟨rfl, h⟩
      exact absurd h (by simp)
    · simp only [Except.ok.injEq]
      constructor
      · rintro rfl
        exact ⟨rfl, rfl⟩
      · exact fun h => h.1

omit [LinearOrder U] in
theorem FormLine.sends_iff {item : ReceivedItem U} :
    line.Sends parseF64 parseDate item ↔
      ∃ q expiresOn, readQuantity parseF64 line.quantity = .ok q ∧
        readDate parseDate line.expiresOn = .ok expiresOn ∧ item = line.item q expiresOn := by
  simp only [FormLine.Sends, readQuantity_ok_iff, readDate_ok_iff, and_assoc]

omit [LinearOrder U] in
/-- A line is sent as one item only. -/
theorem FormLine.Sends.unique {item item' : ReceivedItem U}
    (h : line.Sends parseF64 parseDate item) (h' : line.Sends parseF64 parseDate item') :
    item = item' := by
  obtain ⟨q, d, hq, hd, rfl⟩ := FormLine.sends_iff.mp h
  obtain ⟨q', d', hq', hd', rfl⟩ := FormLine.sends_iff.mp h'
  obtain rfl := Except.ok.inj (hq.symm.trans hq')
  obtain rfl := Except.ok.inj (hd.symm.trans hd')
  rfl

omit [LinearOrder U] in
theorem forall₂_sends_unique {lines : List (FormLine U)} {items items' : List (ReceivedItem U)}
    (h : List.Forall₂ (FormLine.Sends parseF64 parseDate) lines items)
    (h' : List.Forall₂ (FormLine.Sends parseF64 parseDate) lines items') : items = items' := by
  induction h generalizing items' with
  | nil => exact (List.forall₂_nil_left_iff.mp h').symm
  | cons hline _ ih =>
    obtain ⟨item', rest', hline', hrest', rfl⟩ := List.forall₂_cons_left_iff.mp h'
    rw [hline.unique hline', ih hrest']

/-- The API takes the item a line is sent as: it fills in the grocery item's name, and nothing else. -/
theorem receivedArticle_item {q : ℚ} (expiresOn : Option ℤ) (hname : line.Names groceries)
    (hpos : 0 < q) (hmax : q ≤ MAX_QUANTITY) :
    ∃ name, trim line.name = trim name ∧
      receivedArticle groceries (line.item q expiresOn) =
        .ok ⟨line.groceryItemId, ⟨trim name, q, normalizeUnit line.unit, expiresOn⟩, line.mode⟩ := by
  obtain ⟨grocery, hfind, hsame, hblank⟩ := hname
  refine ⟨grocery.name, hsame, ?_⟩
  have hline : receivedLine (line.item q expiresOn) grocery =
      .ok ⟨trim grocery.name, q, normalizeUnit line.unit, expiresOn⟩ := by
    simp only [receivedLine, FormLine.item, Option.getD_none, Option.some_or, Option.getD_some,
      if_neg hblank, if_neg hmax.not_gt, if_neg hpos.not_ge, normalizeUnit_trim]
  rw [receivedArticle, FormLine.item, hfind]
  exact congrArg (Except.map _) hline

/-! ### Line by line -/

section

variable {s : Checking U} {candidates : List (StockCandidate U)}

theorem checkLine_excluded (h : line.excluded = true) :
    checkLine lowercase parseF64 parseDate s line = { s with errors := s.errors ++ [none] } := by
  rw [checkLine, if_pos h]

/-- Each line has its entry, and none is changed after. -/
theorem checkLine_errors (lowercase : Text → Text) (parseF64 : Text → Option F64)
    (parseDate : Text → Option ℤ) (s : Checking U) (line : FormLine U) : ∃ e,
    (checkLine lowercase parseF64 parseDate s line).errors = s.errors ++ [e] := by
  rw [checkLine]
  split
  · exact ⟨_, rfl⟩
  rcases readDate parseDate line.expiresOn with e | d
  · exact ⟨_, rfl⟩
  rcases readQuantity parseF64 line.quantity with e | q
  · exact ⟨_, rfl⟩
  dsimp only
  split
  · exact ⟨_, rfl⟩
  · exact ⟨_, rfl⟩

theorem error_mem_foldl {e : LineError} (lines : List (FormLine U)) (h : some e ∈ s.errors) :
    some e ∈ (lines.foldl (checkLine lowercase parseF64 parseDate) s).errors := by
  induction lines generalizing s with
  | nil => exact h
  | cons line lines ih =>
    obtain ⟨e', he'⟩ := checkLine_errors lowercase parseF64 parseDate s line
    exact ih (he' ▸ List.mem_append_left _ h)

theorem checkLine_sent {q : ℚ} {d : Option ℤ} (hexcluded : ¬line.excluded = true)
    (hdate : readDate parseDate line.expiresOn = .ok d)
    (hquantity : readQuantity parseF64 line.quantity = .ok q) :
    let target := mergeTarget lowercase line.name (normalizeUnit line.unit) d s.candidates
    ¬(line.mode = some .Merge ∧ target = none) →
      checkLine lowercase parseF64 parseDate s line =
        { s with
          candidates := s.candidates ++ if line.newLine target then [line.candidate d] else []
          errors := s.errors ++ [none]
          lot := s.lot ++ [line.item q d]
          targets := s.targets ++ [if line.newLine target then none else target] } := by
  intro target hmerge
  rw [checkLine, if_neg hexcluded, hdate, hquantity]
  exact if_neg hmerge

omit [LinearOrder U] in
/-- Unless the mode asks for a merge there is none of, the article goes where the form says. -/
theorem resolveTarget_newLine {target : Option U} (h : ¬(line.mode = some .Merge ∧ target = none)) :
    resolveTarget line.mode target = .ok (if line.newLine target then none else target) ∧
      ((if line.newLine target then none else target) = none ↔ line.newLine target = true) := by
  rcases hmode : line.mode with _ | _ | _
  · rcases target with _ | id
    · simp [resolveTarget, FormLine.newLine, hmode]
    · simp [resolveTarget, FormLine.newLine, hmode]
  · rcases target with _ | id
    · exact absurd ⟨hmode, rfl⟩ h
    · simp [resolveTarget, FormLine.newLine, hmode]
  · simp [resolveTarget, FormLine.newLine, hmode]

/-- Refused: a line in error is one the API refuses, or cannot be sent. -/
def Refused (parseF64 : Text → Option F64) (parseDate : Text → Option ℤ) (lowercase : Text → Text)
    (groceries : List (GroceryLine U)) (candidates : List (StockCandidate U)) (line : FormLine U) :
    Prop :=
  ∀ item a, line.Sends parseF64 parseDate item → receivedArticle groceries item = .ok a →
    ∃ e, a.resolve lowercase candidates = .error e

/-- STEP: with no date in suspense and the API's candidates, a line is refused by both, or goes to the
    same place for both. -/
theorem checkLine_step (parseF64 : Text → Option F64) (parseDate : Text → Option ℤ) (hline : line.excluded = false) (hname : line.Names groceries)
    (hundated : s.undatedInError = []) (hsame : SameCandidates lowercase s.candidates candidates) :
    ((∃ e, some e ∈ (checkLine lowercase parseF64 parseDate s line).errors) ∧
      Refused parseF64 parseDate lowercase groceries candidates line) ∨
    ∃ item a target, line.Sends parseF64 parseDate item ∧ receivedArticle groceries item = .ok a ∧
      a.groceryItemId = line.groceryItemId ∧ a.resolve lowercase candidates = .ok target ∧
      checkLine lowercase parseF64 parseDate s line =
        { s with
          candidates := (checkLine lowercase parseF64 parseDate s line).candidates
          errors := s.errors ++ [none]
          lot := s.lot ++ [item]
          targets := s.targets ++ [target] } ∧
      SameCandidates lowercase (checkLine lowercase parseF64 parseDate s line).candidates
        (candidates ++ if target = none then [a.candidate] else []) := by
  have hexcluded : ¬line.excluded = true := by simp [hline]
  rcases hdate : readDate parseDate line.expiresOn with e | d
  · refine Or.inl ⟨⟨_, by
      rw [checkLine, if_neg hexcluded, hdate]
      exact List.mem_append_right _ List.mem_cons_self⟩, fun item a hsends _ => ?_⟩
    obtain ⟨q, d, _, hd, _⟩ := FormLine.sends_iff.mp hsends
    exact absurd (hdate.symm.trans hd) (by simp)
  rcases hquantity : readQuantity parseF64 line.quantity with e | q
  · refine Or.inl ⟨⟨e, by
      rw [checkLine, if_neg hexcluded, hdate, hquantity]
      exact List.mem_append_right _ List.mem_cons_self⟩, fun item a hsends _ => ?_⟩
    obtain ⟨q, _, hq, _⟩ := FormLine.sends_iff.mp hsends
    exact absurd (hquantity.symm.trans hq) (by simp)
  have hsends : line.Sends parseF64 parseDate (line.item q d) :=
    FormLine.sends_iff.mpr ⟨q, d, hquantity, hdate, rfl⟩
  obtain ⟨_, hpos, hmax⟩ := readQuantity_ok_iff.mp hquantity
  obtain ⟨name, hnames, harticle⟩ := receivedArticle_item d hname hpos hmax
  set a : Article U :=
    ⟨line.groceryItemId, ⟨trim name, q, normalizeUnit line.unit, d⟩, line.mode⟩ with ha
  -- both look for the same line
  have hkey : articleKey lowercase line.name = articleKey lowercase (trim name) := by
    rw [← hnames, articleKey_trim]
  have htarget : mergeTarget lowercase line.name (normalizeUnit line.unit) d s.candidates =
      mergeTarget lowercase (trim name) (normalizeUnit line.unit) d candidates :=
    mergeTarget_congr hsame hkey rfl
  have hcandidate : (line.candidate d).Same lowercase a.candidate := ⟨rfl, hkey, rfl, rfl⟩
  have hresolve : a.resolve lowercase candidates = resolveTarget line.mode
      (mergeTarget lowercase line.name (normalizeUnit line.unit) d s.candidates) := by
    rw [htarget]
    rfl
  by_cases hmerge : line.mode = some .Merge ∧
      mergeTarget lowercase line.name (normalizeUnit line.unit) d s.candidates = none
  · -- nothing is in suspense, so nothing is pending
    have hpending : mergeTarget lowercase line.name (normalizeUnit line.unit) none s.undatedInError =
        none := by
      rw [hundated]
      rfl
    refine Or.inl ⟨⟨.NoStockToMerge, ?_⟩, fun item a' hsends' harticle' => ?_⟩
    · rw [checkLine, if_neg hexcluded, hdate, hquantity]
      dsimp only
      rw [if_pos hmerge, if_pos hpending]
      exact List.mem_append_right _ List.mem_cons_self
    · rw [hsends'.unique hsends, harticle] at harticle'
      obtain rfl := Except.ok.inj harticle'
      rw [hresolve, hmerge.1, hmerge.2]
      exact ⟨_, rfl⟩
  · obtain ⟨hok, hnone⟩ := resolveTarget_newLine hmerge
    have hsent := checkLine_sent hexcluded hdate hquantity hmerge
    refine Or.inr ⟨_, a, _, hsends, harticle, rfl, hresolve.trans hok, ?_, ?_⟩
    · rw [hsent]
    · rw [hsent]
      by_cases hnew : line.newLine
          (mergeTarget lowercase line.name (normalizeUnit line.unit) d s.candidates) = true
      · rw [if_pos (hnone.mpr hnew), if_pos hnew]
        exact hsame.concat hcandidate
      · rw [if_neg fun h => hnew (hnone.mp h), if_neg hnew]
        simpa using hsame

end

/-! ### The whole lot -/

/-- The lines not left out. -/
def kept (lines : List (FormLine U)) : List (FormLine U) := lines.filter fun line => !line.excluded

omit [LinearOrder U] in
theorem Target.line_landing [LinearOrder U] {created : List (U × ℕ)} {done : List (Article U)}
    (h : ∀ x ∈ created, (done[x.2]?).map Article.groceryItemId = some x.1)
    (articles : List (Article U)) (id : U) :
    (landing created id).line (done ++ articles) = some id := by
  rcases landing_cases created id with ⟨creator, hmem, heq⟩ | ⟨_, heq⟩
  · have hat := h _ hmem
    rw [Option.map_eq_some_iff] at hat
    obtain ⟨b, hb, hid⟩ := hat
    obtain ⟨hlt, _⟩ := List.getElem?_eq_some_iff.mp hb
    rw [heq, Target.line, List.getElem?_append_left hlt, hb]
    exact congrArg some hid
  · rw [heq, Target.line]

omit [LinearOrder U] in
theorem forall₂_sends_cons {lines : List (FormLine U)} {items : List (ReceivedItem U)}
    (hline : line.excluded = false)
    (h : List.Forall₂ (FormLine.Sends parseF64 parseDate) (kept (line :: lines)) items) :
    ∃ item rest, line.Sends parseF64 parseDate item ∧
      List.Forall₂ (FormLine.Sends parseF64 parseDate) (kept lines) rest ∧ items = item :: rest := by
  rw [kept, List.filter_cons_of_pos (by simp [hline])] at h
  exact List.forall₂_cons_left_iff.mp h

omit [LinearOrder U] in
theorem mapM_ok_cons [DecidableEq U] {item : ReceivedItem U} {items : List (ReceivedItem U)}
    {articles : List (Article U)} {f : ReceivedItem U → Except AppError (Article U)} :
    (item :: items).mapM f = .ok articles ↔
      ∃ a rest, f item = .ok a ∧ items.mapM f = .ok rest ∧ articles = a :: rest := by
  rw [List.mapM_cons]
  rcases f item with e | a
  · simp [bind, Except.bind]
  rcases items.mapM f with e | rest
  · simp [bind, Except.bind]
  · simp [bind, Except.bind, pure, Except.pure, eq_comm]

/-- The API takes the lot of these lines, with the candidates and new lines so far. -/
def Accepts (parseF64 : Text → Option F64) (parseDate : Text → Option ℤ) (lowercase : Text → Text)
    (groceries : List (GroceryLine U)) (index : ℕ) (candidates : List (StockCandidate U))
    (created : List (U × ℕ)) (lines : List (FormLine U)) (items : List (ReceivedItem U))
    (articles : List (Article U)) (targets : List (Target U)) : Prop :=
  List.Forall₂ (FormLine.Sends parseF64 parseDate) (kept lines) items ∧
    items.mapM (receivedArticle groceries) = .ok articles ∧
    planFrom lowercase index candidates created articles = .ok targets

section

variable {index : ℕ} {candidates : List (StockCandidate U)} {created : List (U × ℕ)}
  {lines : List (FormLine U)} {items : List (ReceivedItem U)} {articles : List (Article U)}
  {targets : List (Target U)}

theorem accepts_nil :
    Accepts parseF64 parseDate lowercase groceries index candidates created [] [] [] [] :=
  ⟨List.Forall₂.nil, rfl, rfl⟩

theorem accepts_excluded (hline : line.excluded = true) :
    Accepts parseF64 parseDate lowercase groceries index candidates created (line :: lines) items
        articles targets ↔
      Accepts parseF64 parseDate lowercase groceries index candidates created lines items articles
        targets := by
  rw [Accepts, Accepts, kept, List.filter_cons_of_neg (by simp [hline])]
  rfl

/-- The next candidates and new lines, after an article at `index`. -/
theorem planFrom_resolve {a : Article U} {target : Option U}
    (hres : a.resolve lowercase candidates = .ok target) :
    planFrom lowercase index candidates created (a :: articles) =
      (planFrom lowercase (index + 1) (candidates ++ if target = none then [a.candidate] else [])
        (created ++ if target = none then [(a.groceryItemId, index)] else []) articles).map
          ((target.elim .New (landing created)) :: ·) := by
  rcases target with _ | id
  · exact planFrom_new hres
  · rw [planFrom_merge hres, if_neg (by simp), if_neg (by simp), List.append_nil, List.append_nil]
    rfl

theorem Accepts.cons {item : ReceivedItem U} {a : Article U} {target : Option U}
    (hline : line.excluded = false) (hsends : line.Sends parseF64 parseDate item)
    (harticle : receivedArticle groceries item = .ok a)
    (hres : a.resolve lowercase candidates = .ok target) :
    Accepts parseF64 parseDate lowercase groceries index candidates created (line :: lines) items
        articles targets ↔
      ∃ items' articles' targets',
        Accepts parseF64 parseDate lowercase groceries (index + 1)
          (candidates ++ if target = none then [a.candidate] else [])
          (created ++ if target = none then [(a.groceryItemId, index)] else []) lines items' articles'
          targets' ∧
        items = item :: items' ∧ articles = a :: articles' ∧
          targets = target.elim .New (landing created) :: targets' := by
  constructor
  · rintro ⟨hforall, hmap, hplan⟩
    obtain ⟨item', items', hsends', hforall', rfl⟩ := forall₂_sends_cons hline hforall
    obtain rfl := hsends'.unique hsends
    obtain ⟨a', articles', ha', hmap', rfl⟩ := mapM_ok_cons.mp hmap
    obtain rfl := Except.ok.inj (ha'.symm.trans harticle)
    rw [planFrom_resolve hres] at hplan
    rcases htail : planFrom lowercase (index + 1)
      (candidates ++ if target = none then [a'.candidate] else [])
      (created ++ if target = none then [(a'.groceryItemId, index)] else []) articles' with e | targets'
    · rw [htail] at hplan
      exact absurd hplan (by simp [Except.map])
    · rw [htail] at hplan
      exact ⟨items', articles', targets', ⟨hforall', hmap', htail⟩, rfl, rfl,
        (Except.ok.inj hplan).symm⟩
  · rintro ⟨items', articles', targets', ⟨hforall, hmap, hplan⟩, rfl, rfl, rfl⟩
    refine ⟨?_, mapM_ok_cons.mpr ⟨a, articles', harticle, hmap, rfl⟩, ?_⟩
    · rw [kept, List.filter_cons_of_pos (by simp [hline])]
      exact List.Forall₂.cons hsends hforall
    · rw [planFrom_resolve hres, hplan]
      rfl

theorem not_accepts_refused (hline : line.excluded = false)
    (h : Refused parseF64 parseDate lowercase groceries candidates line) :
    ¬Accepts parseF64 parseDate lowercase groceries index candidates created (line :: lines) items
        articles targets := by
  rintro ⟨hforall, hmap, hplan⟩
  obtain ⟨item, items', hsends, _, rfl⟩ := forall₂_sends_cons hline hforall
  obtain ⟨a, articles', ha, _, rfl⟩ := mapM_ok_cons.mp hmap
  obtain ⟨e, he⟩ := h item a hsends ha
  rw [planFrom_error he] at hplan
  exact absurd hplan (by simp)

end

/-- RUN: with no line in error so far, the lines left end in error and the API takes none of their lots,
    or end without and it takes the one the form sends, to the same places. -/
theorem checkLines_run (parseF64 : Text → Option F64) (parseDate : Text → Option ℤ)
    (lines : List (FormLine U))
    (hnames : ∀ line ∈ lines, line.excluded = false → line.Names groceries) :
    ∀ {s : Checking U} {candidates : List (StockCandidate U)} {created : List (U × ℕ)}
      {done : List (Article U)}, (∀ e ∈ s.errors, e = none) → s.undatedInError = [] →
      SameCandidates lowercase s.candidates candidates →
      (∀ x ∈ created, (done[x.2]?).map Article.groceryItemId = some x.1) →
      ((∃ e, some e ∈ (lines.foldl (checkLine lowercase parseF64 parseDate) s).errors) ∧
        ∀ items articles targets, ¬Accepts parseF64 parseDate lowercase groceries done.length
          candidates created lines items articles targets) ∨
      (∀ e ∈ (lines.foldl (checkLine lowercase parseF64 parseDate) s).errors, e = none) ∧
        ∃ items articles targets, Accepts parseF64 parseDate lowercase groceries done.length candidates
          created lines items articles targets ∧
          (lines.foldl (checkLine lowercase parseF64 parseDate) s).lot = s.lot ++ items ∧
          (lines.foldl (checkLine lowercase parseF64 parseDate) s).targets =
            s.targets ++ targets.map (Target.line (done ++ articles)) := by
  induction lines with
  | nil =>
    intro s candidates created done herrors _ _ _
    exact Or.inr ⟨herrors, [], [], [], accepts_nil, by simp, by simp⟩
  | cons line lines ih =>
    intro s candidates created done herrors hundated hsame hcreated
    have ih' := @ih fun l hl => hnames l (List.mem_cons_of_mem _ hl)
    by_cases hline : line.excluded = true
    · simp only [List.foldl_cons, checkLine_excluded hline, accepts_excluded hline]
      refine ih' (fun e he => ?_) hundated hsame hcreated
      rcases List.mem_append.mp he with he | he
      · exact herrors e he
      · exact List.mem_singleton.mp he
    · rw [Bool.not_eq_true] at hline
      rcases checkLine_step parseF64 parseDate hline
        (hnames line List.mem_cons_self hline) hundated hsame with
        ⟨⟨e, he⟩, hrefused⟩ | ⟨item, a, target, hsends, harticle, hid, hres, hstep, hsame'⟩
      · exact Or.inl ⟨⟨e, error_mem_foldl lines he⟩, fun _ _ _ => not_accepts_refused hline hrefused⟩
      rw [List.foldl_cons]
      set s' := checkLine lowercase parseF64 parseDate s line
      have herrors' : ∀ e ∈ s'.errors, e = none := fun e he => by
        rw [(congrArg Checking.errors hstep : s'.errors = s.errors ++ [none])] at he
        rcases List.mem_append.mp he with he | he
        · exact herrors e he
        · exact List.mem_singleton.mp he
      have hundated' : s'.undatedInError = [] :=
        (congrArg Checking.undatedInError hstep).trans hundated
      have hlot : s'.lot = s.lot ++ [item] := congrArg Checking.lot hstep
      have htargets : s'.targets = s.targets ++ [target] := congrArg Checking.targets hstep
      have hcreated' : ∀ x ∈ created ++ (if target = none then [(a.groceryItemId, done.length)] else []),
          ((done ++ [a])[x.2]?).map Article.groceryItemId = some x.1 := fun x hx => by
        rcases List.mem_append.mp hx with hx | hx
        · obtain ⟨b, hb, hbid⟩ := Option.map_eq_some_iff.mp (hcreated x hx)
          obtain ⟨hlt, _⟩ := List.getElem?_eq_some_iff.mp hb
          rw [List.getElem?_append_left hlt, hb, Option.map_some, hbid]
        · split at hx
          · rw [List.mem_singleton.mp hx, List.getElem?_concat_length]
            rfl
          · exact absurd hx List.not_mem_nil
      have hlen : (done ++ [a]).length = done.length + 1 := by simp
      have hrun := ih' herrors' hundated' hsame' hcreated'
      rw [hlen] at hrun
      rcases hrun with ⟨herror, hnot⟩ | ⟨hclean, items, articles, targets, hok, hlots, hlands⟩
      · refine Or.inl ⟨herror, fun items articles targets hacc => ?_⟩
        obtain ⟨items', articles', targets', hacc', _⟩ :=
          (Accepts.cons hline hsends harticle hres).mp hacc
        exact hnot _ _ _ hacc'
      · refine Or.inr ⟨hclean, item :: items, a :: articles,
          target.elim .New (landing created) :: targets,
          (Accepts.cons hline hsends harticle hres).mpr ⟨_, _, _, hok, rfl, rfl, rfl⟩, ?_, ?_⟩
        · rw [hlots, hlot, List.append_assoc]
          rfl
        · have hline' : (target.elim .New (landing created)).line (done ++ a :: articles) = target := by
            rcases target with _ | id
            · rfl
            · exact Target.line_landing hcreated (a :: articles) id
          rw [hlands, htargets, List.map_cons, hline', List.append_assoc, List.append_assoc]
          rfl

omit [LinearOrder U] in
theorem item_of_sends {item : ReceivedItem U} (h : line.Sends parseF64 parseDate item) :
    item.groceryItemId = line.groceryItemId := by
  obtain ⟨_, _, _, _, _, _, rfl⟩ := h
  rfl

omit [LinearOrder U] in
theorem ids_of_sends {lines : List (FormLine U)} {items : List (ReceivedItem U)}
    (h : List.Forall₂ (FormLine.Sends parseF64 parseDate) lines items) :
    items.map ReceivedItem.groceryItemId = lines.map FormLine.groceryItemId := by
  induction h with
  | nil => rfl
  | cons hline _ ih => rw [List.map_cons, List.map_cons, ih, item_of_sends hline]

/-- CORRECT: the form and the API accept the same lots. Of lines with distinct ids that carry their
    grocery items' names, the form sends a lot if and only if it is that of the lines not left out, one
    at least, their quantities and dates within bounds, and the API takes it and plans it; and each
    article then goes where the form found. -/
theorem validateLines_ok_iff (lines : List (FormLine U)) (stock : List (StockCandidate U))
    (groceries : List (GroceryLine U)) (hids : (lines.map FormLine.groceryItemId).Nodup)
    (hnames : ∀ line ∈ lines, line.excluded = false → line.Names groceries)
    (lot : List (ReceivedItem U)) :
    (validateLines lowercase parseF64 parseDate lines stock = .ok lot ↔
      (∃ line ∈ lines, line.excluded = false) ∧
      List.Forall₂ (FormLine.Sends parseF64 parseDate)
        (lines.filter fun line => !line.excluded) lot ∧
      checkLot (lot.map ReceivedItem.groceryItemId) = .ok () ∧
      ∃ articles targets, planLot lowercase groceries stock lot = .ok (articles, targets)) ∧
    (validateLines lowercase parseF64 parseDate lines stock = .ok lot →
      ∃ articles targets, planLot lowercase groceries stock lot = .ok (articles, targets) ∧
        (checkLines lowercase parseF64 parseDate lines stock).targets =
          targets.map (Target.line articles)) := by
  have hplanLot : ∀ articles targets, planLot lowercase groceries stock lot = .ok (articles, targets) ↔
      lot.mapM (receivedArticle groceries) = .ok articles ∧
        plan lowercase articles stock = .ok targets := fun articles targets => by
    rw [planLot]
    rcases lot.mapM (receivedArticle groceries) with e | articles'
    · simp [bind, Except.bind]
    rcases hp : plan lowercase articles' stock with e | targets'
    · simp only [bind, Except.bind, hp, reduceCtorEq, Except.ok.injEq, false_iff]
      rintro ⟨rfl, h⟩
      rw [hp] at h
      exact absurd h (by simp)
    · simp only [bind, Except.bind, hp, pure, Except.pure, Except.ok.injEq, Prod.mk.injEq]
      constructor
      · rintro ⟨rfl, rfl⟩
        exact ⟨rfl, hp⟩
      · rintro ⟨rfl, h⟩
        exact ⟨rfl, Except.ok.inj (hp.symm.trans h)⟩
  rcases @checkLines_run U _ lowercase groceries parseF64 parseDate lines hnames
    ⟨stock, [], [], [], []⟩ stock [] [] (fun _ he => absurd he List.not_mem_nil) rfl
    (SameCandidates.refl stock) (fun _ hx => absurd hx List.not_mem_nil) with
    ⟨⟨e, he⟩, hnot⟩ | ⟨hclean, items, articles, targets, hok, hlot, htargets⟩
  · have hrefused : validateLines lowercase parseF64 parseDate lines stock ≠ .ok lot := by
      have hany : (checkLines lowercase parseF64 parseDate lines stock).errors.any Option.isSome = true :=
        List.any_eq_true.mpr ⟨_, he, rfl⟩
      rw [validateLines, if_pos hany]
      simp
    refine ⟨⟨fun h => absurd h hrefused, ?_⟩, fun h => absurd h hrefused⟩
    rintro ⟨_, hsends, _, articles, targets, hplan⟩
    obtain ⟨hmap, hplan⟩ := (hplanLot articles targets).mp hplan
    exact absurd ⟨hsends, hmap, hplan⟩ (hnot lot articles targets)
  · have hany : ¬(checkLines lowercase parseF64 parseDate lines stock).errors.any Option.isSome =
        true := by
      rw [List.any_eq_true]
      rintro ⟨e, he, hsome⟩
      rw [hclean e he] at hsome
      exact absurd hsome (by simp)
    have hlot' : (checkLines lowercase parseF64 parseDate lines stock).lot = items := hlot
    have htargets' : (checkLines lowercase parseF64 parseDate lines stock).targets =
        targets.map (Target.line articles) := htargets
    have hiff : validateLines lowercase parseF64 parseDate lines stock = .ok lot ↔
        items ≠ [] ∧ lot = items := by
      rw [validateLines, if_neg hany, hlot']
      by_cases hempty : items = []
      · simp [hempty]
      · simp [hempty, eq_comm]
    refine ⟨?_, fun h => ?_⟩
    · rw [hiff]
      constructor
      · rintro ⟨hne, rfl⟩
        have hlen := hok.1.length_eq
        obtain ⟨line, hline⟩ := List.exists_mem_of_length_pos (l := kept lines)
          (hlen ▸ List.length_pos_iff.mpr hne)
        have hcheck : checkLot (lot.map ReceivedItem.groceryItemId) = .ok () := by
          have hnodup : (lot.map ReceivedItem.groceryItemId).Nodup := by
            rw [ids_of_sends hok.1]
            exact hids.sublist ((List.filter_sublist).map _)
          rw [checkLot, if_neg (by simpa using hne), if_neg (not_not.mpr hnodup)]
        exact ⟨⟨line, List.mem_of_mem_filter hline, by simpa using List.of_mem_filter hline⟩, hok.1,
          hcheck, articles, targets, (hplanLot articles targets).mpr hok.2⟩
      · rintro ⟨⟨line, hmem, hline⟩, hsends, _, _⟩
        have hsame := forall₂_sends_unique hsends hok.1
        refine ⟨fun hempty => ?_, hsame⟩
        have hlen := hok.1.length_eq
        rw [hempty] at hlen
        have hkept : line ∈ kept lines := List.mem_filter.mpr ⟨hmem, by simp [hline]⟩
        rw [List.length_eq_zero_iff.mp hlen] at hkept
        exact absurd hkept List.not_mem_nil
    · obtain ⟨_, rfl⟩ := hiff.mp h
      exact ⟨articles, targets, (hplanLot articles targets).mpr hok.2, htargets'⟩

/-- Two « lait », the second merged into the line the first makes, and a « pain » left out. -/
theorem validateLines_ok_iff_milk :
    let parse : Text → Option F64 := fun text => if text = ['2'] then some (.finite 2) else none
    let lines : List (FormLine ℕ) :=
      [⟨1, ['l'], ['2'], ['L'], [], some .New, false⟩,
        ⟨2, ['l'], ['2', ' '], ['L'], [], some .Merge, false⟩, ⟨3, ['p'], [], [], [], none, true⟩]
    let groceries : List (GroceryLine ℕ) :=
      [⟨1, ['l'], none, none⟩, ⟨2, ['l'], none, none⟩, ⟨3, ['p'], none, none⟩]
    ∃ lot articles targets, validateLines id parse (fun _ => none) lines [] = .ok lot ∧
      planLot id groceries [] lot = .ok (articles, targets) ∧ targets = [.New, .Lot 0] := by
  intro parse lines groceries
  have hnames : ∀ line ∈ lines, line.excluded = false → line.Names groceries := by
    intro line hline hkept
    rcases List.mem_cons.mp hline with rfl | hline
    · exact ⟨⟨1, ['l'], none, none⟩, rfl, rfl, by decide⟩
    rcases List.mem_cons.mp hline with rfl | hline
    · exact ⟨⟨2, ['l'], none, none⟩, rfl, rfl, by decide⟩
    · rw [List.mem_singleton.mp hline] at hkept
      exact absurd hkept (by decide)
  obtain ⟨articles, targets, hplan, _⟩ := (@validateLines_ok_iff ℕ _ id parse (fun _ => none) lines []
    groceries (by decide) hnames
    [⟨1, none, some (.finite 2), some ['L'], none, some .New⟩,
      ⟨2, none, some (.finite 2), some ['L'], none, some .Merge⟩]).2 rfl
  refine ⟨_, articles, targets, rfl, hplan, ?_⟩
  exact (Prod.mk.inj (Except.ok.inj (hplan.symm.trans rfl))).2

end Home.Stocks
