import ManageOurHome.Error
import ManageOurHome.Float
import ManageOurHome.Recipes.Steps

/-! @src apps/shared/src/validation/recipes.rs, apps/shared/src/dto/recipes.rs | layer:proof | family:recipe form

    The ingredient lines of the recipe form: what fills them from the ingredients stored, and what is read of them.

        Tomate, 0.5, kg, [6, 7]   ──▶   "0.5" "kg" "Tomate" "6,7"   ──▶   Tomate, 0.5, kg, [6, 7]

    How an `f64` is printed is a parameter. -/

namespace Home.Recipes.Form

/-! ### The form's lines -/

inductive IngredientParseError where
  | NameRequired (line : ℕ)
  | QuantityInvalid (line : ℕ)
  | QuantityNegative (line : ℕ)
  | MonthInvalid (line : ℕ)
  deriving DecidableEq

structure IngredientInput where
  name : Text
  quantity : Option F64
  unit : Option Text
  isOptional : Bool
  seasonalMonths : Option (List ℤ)
  deriving DecidableEq

structure IngredientResponse (Id : Type*) extends IngredientInput where
  id : Id

structure IngredientFields where
  quantity : Text
  unit : Text
  name : Text
  months : Text
  optional : Bool
  deriving DecidableEq

def IngredientFields.isBlank (f : IngredientFields) : Bool := [f.quantity, f.unit, f.name, f.months].all (trim · = [])

/-- The parts of a months field, onto the months read so far. -/
def readMonths (line : ℕ) : List Text → List ℤ → Except IngredientParseError (List ℤ)
  | [], months => .ok months
  | part :: parts, months =>
    if trim part = [] then readMonths line parts months
    else
      match parseI32 (trim part) with
      | none => .error (.MonthInvalid line)
      | some m => if 1 ≤ m ∧ m ≤ 12 then readMonths line parts (months ++ [m]) else .error (.MonthInvalid line)

def parseMonths (field : Text) (line : ℕ) : Except IngredientParseError (List ℤ) :=
  readMonths line (field.splitOn ',') []

def parseQuantity (field : Text) (line : ℕ) : Except IngredientParseError (Option F64) :=
  if trim field = [] then .ok none
  else
    match parseF64 ((trim field).map fun c => if c = ',' then '.' else c) with
    | none => .error (.QuantityInvalid line)
    | some v => if v.isNegative then .error (.QuantityNegative line) else .ok (some v)

def parseLine (f : IngredientFields) (line : ℕ) : Except IngredientParseError IngredientInput :=
  let name := trim f.name
  if name = [] then .error (.NameRequired line)
  else do
    let quantity ← parseQuantity f.quantity line
    let unit := (some (trim f.unit)).filter (· ≠ [])
    let months ← parseMonths f.months line
    .ok ⟨name, quantity, unit, f.optional, if months = [] then none else some months⟩

/-- Lines are numbered from 1, blank ones included. -/
def parseIngredientFields (lines : List IngredientFields) : Except IngredientParseError (List IngredientInput) :=
  (lines.zipIdx.filter fun l => !l.1.isBlank).mapM fun l => parseLine l.1 (l.2 + 1)

/-- `i32::to_string`. -/
def i32ToString (n : ℤ) : Text := (if n < 0 then ['-'] else []) ++ Nat.toDigits 10 n.natAbs

variable (display : F64 → Text) {Id : Type*}

/-- Without a trailing `.0` on whole numbers. -/
def fmtQty : F64 → Text
  | .finite q => if q.den = 1 ∧ |q| < 10 ^ 15 then i32ToString q.num else display (.finite q)
  | n => display n

def ingredientFields (ingredients : List (IngredientResponse Id)) : List IngredientFields :=
  ingredients.map fun i => {
    quantity := (i.quantity.map (fmtQty display)).getD []
    unit := i.unit.getD []
    name := i.name
    months := (i.seasonalMonths.map fun m => [','].intercalate (m.map i32ToString)).getD []
    optional := i.isOptional }

/-! ### What is stored -/

/-- A finite `f64`, printed with digits and a point, and read back. -/
structure Printed (q : ℚ) : Prop where
  plain : ∀ c ∈ display (.finite q), c.isDigit = true ∨ c = '.'
  reads : parseF64 (display (.finite q)) = some (.finite q)

/-- An ingredient as the form stores it. -/
structure Stored (i : IngredientInput) : Prop where
  name : i.name ≠ [] ∧ trim i.name = i.name
  unit : ∀ u ∈ i.unit, u ≠ [] ∧ trim u = u
  quantity : ∀ v ∈ i.quantity, ∃ q, v = .finite q ∧ 0 ≤ q
  months : ∀ ms ∈ i.seasonalMonths, ms ≠ [] ∧ ∀ m ∈ ms, 1 ≤ m ∧ m ≤ 12

variable {display} {i : IngredientInput} {r : IngredientResponse Id} {f : IngredientFields} {line : ℕ} {q : ℚ} {v : F64}
  {ms : List ℤ}

theorem visible_of_isDigit {c : Char} (h : c.isDigit = true) : isWhitespace c = false := by
  rw [Char.isDigit, Bool.and_eq_true, decide_eq_true_iff, decide_eq_true_iff] at h
  have hlo : 48 ≤ c.toNat := UInt32.le_iff_toNat_le.mp h.1
  have hhi : c.toNat ≤ 57 := UInt32.le_iff_toNat_le.mp h.2
  rw [isWhitespace, decide_eq_false_iff_not]
  omega

/-- A number printed is read back whole: it has no whitespace, and no comma. -/
theorem parseQuantity_printed {t : Text} (hplain : ∀ c ∈ t, c.isDigit = true ∨ c = '.')
    (hreads : parseF64 t = some (.finite q)) (hq : 0 ≤ q) : parseQuantity t line = .ok (some (.finite q)) := by
  have htrim : trim t = t := trim_eq_self fun c hc => by
    rcases hplain c hc with h | rfl
    · exact visible_of_isDigit h
    · decide
  have hne : t ≠ [] := by
    rintro rfl
    have hnil : parseF64 [] = none := rfl
    rw [hnil] at hreads
    cases hreads
  have hmap : t.map (fun c => if c = ',' then '.' else c) = t := by
    conv_rhs => rw [← List.map_id t]
    refine List.map_congr_left fun c hc => if_neg ?_
    rintro rfl
    exact absurd (hplain _ hc) (by decide)
  rw [parseQuantity, htrim, if_neg hne, hmap, hreads]
  exact if_neg (by simpa [F64.isNegative] using hq)

theorem parseQuantity_fmtQty (hq : 0 ≤ q) (hprinted : Printed display q) :
    parseQuantity (fmtQty display (.finite q)) line = .ok (some (.finite q)) := by
  rw [fmtQty]
  split
  · rename_i hwhole
    obtain ⟨n, rfl⟩ : ∃ n : ℕ, q = n := by
      have hnum : (q.num : ℚ) = q := by rw [Rat.den_eq_one_iff] at hwhole; exact hwhole.1
      obtain ⟨n, hn⟩ := Int.eq_ofNat_of_zero_le (Rat.num_nonneg.mpr hq)
      exact ⟨n, by rw [← hnum, hn]; rfl⟩
    have htext : i32ToString ((n : ℚ)).num = Nat.toDigits 10 n := by
      rw [Rat.num_natCast, i32ToString, if_neg (by omega), List.nil_append, Int.natAbs_natCast]
    have hsmall : n < 2 ^ 53 := by
      have hlt : (n : ℚ) < 10 ^ 15 := by simpa using hwhole.2
      have hlt : n < 10 ^ 15 := by exact_mod_cast hlt
      omega
    rw [htext]
    exact parseQuantity_printed (fun c hc => .inl (isDigit_toDigits hc)) (parseF64_toDigits hsmall) hq
  · exact parseQuantity_printed hprinted.plain hprinted.reads hq

theorem i32ToString_spec {m : ℤ} (h : 1 ≤ m ∧ m ≤ 12) :
    ',' ∉ i32ToString m ∧ i32ToString m ≠ [] ∧ trim (i32ToString m) = i32ToString m ∧
      parseI32 (i32ToString m) = some m := by
  obtain ⟨n, rfl⟩ := Int.eq_ofNat_of_zero_le (by omega : 0 ≤ m)
  have htext : i32ToString (n : ℤ) = Nat.toDigits 10 n := by
    rw [i32ToString, if_neg (by omega), List.nil_append, Int.natAbs_natCast]
  rw [htext]
  refine ⟨fun hc => absurd (isDigit_toDigits hc) (by decide), Nat.toDigits_ne_nil,
    trim_eq_self fun c hc => visible_of_isDigit (isDigit_toDigits hc), ?_⟩
  rw [parseI32, parseSigned_toDigits]
  refine Option.filter_some_pos ?_
  rw [decide_eq_true_iff]
  omega

theorem readMonths_toString (h : ∀ m ∈ ms, 1 ≤ m ∧ m ≤ 12) (read : List ℤ) :
    readMonths line (ms.map i32ToString) read = .ok (read ++ ms) := by
  induction ms generalizing read with
  | nil => rw [List.map_nil, readMonths, List.append_nil]
  | cons m ms ih =>
    obtain ⟨hm, hms⟩ := List.forall_mem_cons.mp h
    obtain ⟨-, hne, htrim, hparse⟩ := i32ToString_spec hm
    rw [List.map_cons, readMonths, htrim, if_neg hne, hparse]
    dsimp only
    rw [if_pos hm, ih hms, List.append_assoc, List.singleton_append]

theorem parseMonths_toString (hne : ms ≠ []) (h : ∀ m ∈ ms, 1 ≤ m ∧ m ≤ 12) :
    parseMonths ([','].intercalate (ms.map i32ToString)) line = .ok ms := by
  have hcomma : ∀ part ∈ ms.map i32ToString, ',' ∉ part := by
    intro part hpart
    obtain ⟨m, hm, rfl⟩ := List.mem_map.mp hpart
    exact (i32ToString_spec (h m hm)).1
  rw [parseMonths, List.splitOn_intercalate ',' hcomma (by simpa using hne), readMonths_toString h]
  rfl

/-- A line filled from an ingredient is read back as it. -/
theorem parseLine_filled (h : Stored r.toIngredientInput)
    (hprinted : ∀ q, r.quantity = some (.finite q) → Printed display q)
    (hfilled : f ∈ ingredientFields display [r]) : parseLine f line = .ok r.toIngredientInput := by
  obtain rfl := List.mem_singleton.mp hfilled
  have hquantity : parseQuantity ((r.quantity.map (fmtQty display)).getD []) line = .ok r.quantity := by
    cases hq : r.quantity with
    | none => rfl
    | some v =>
      obtain ⟨q, rfl, hpos⟩ := h.quantity v hq
      exact parseQuantity_fmtQty hpos (hprinted q hq)
  have hunit : (some (trim (r.unit.getD []))).filter (· ≠ []) = r.unit := by
    cases hu : r.unit with
    | none => rfl
    | some u =>
      obtain ⟨hne, htrim⟩ := h.unit u hu
      rw [Option.getD_some, htrim]
      exact Option.filter_some_pos (by simpa using hne)
  have hmonths : ∃ ms,
      parseMonths ((r.seasonalMonths.map fun m => [','].intercalate (m.map i32ToString)).getD []) line = .ok ms ∧ (if ms = [] then none else some ms) = r.seasonalMonths := by
    cases hm : r.seasonalMonths with
    | none => exact ⟨[], rfl, rfl⟩
    | some ms =>
      obtain ⟨hne, hms⟩ := h.months ms hm
      exact ⟨ms, parseMonths_toString hne hms, if_neg hne⟩
  obtain ⟨ms, hread, hms⟩ := hmonths
  rw [parseLine, h.name.2, if_neg h.name.1, bind_eq_ok]
  refine ⟨_, hquantity, bind_eq_ok.mpr ⟨ms, hread, ?_⟩⟩
  rw [hunit, hms]

theorem isBlank_filled (h : Stored r.toIngredientInput) (hfilled : f ∈ ingredientFields display [r]) :
    f.isBlank = false := by
  obtain rfl := List.mem_singleton.mp hfilled
  have hname : trim r.name ≠ [] := h.name.2.symm ▸ h.name.1
  simp [IngredientFields.isBlank, hname]

theorem parseIngredientFields_filled {ingredients : List (IngredientResponse Id)}
    (h : ∀ r ∈ ingredients, Stored r.toIngredientInput ∧ ∀ q, r.quantity = some (.finite q) → Printed display q) :
    parseIngredientFields (ingredientFields display ingredients) = .ok (ingredients.map (·.toIngredientInput)) := by
  have hfrom : ∀ k, (((ingredientFields display ingredients).zipIdx k).filter fun l => !l.1.isBlank).mapM
      (fun l => parseLine l.1 (l.2 + 1)) = .ok (ingredients.map (·.toIngredientInput)) := by
    induction ingredients with
    | nil => exact fun _ => rfl
    | cons r ingredients ih =>
      obtain ⟨⟨hstored, hprinted⟩, hrest⟩ := List.forall_mem_cons.mp h
      intro k
      rw [ingredientFields, List.map_cons, List.zipIdx_cons, List.filter_cons_of_pos
        (by rw [isBlank_filled hstored (List.mem_singleton_self _)]; rfl), List.mapM_cons, bind_eq_ok]
      exact ⟨_, parseLine_filled hstored hprinted (List.mem_singleton_self _),
        bind_eq_ok.mpr ⟨_, ih hrest (k + 1), rfl⟩⟩
  exact hfrom 0

/-! ### What is accepted -/

/-- What is typed for a quantity, as it is read. -/
def IngredientFields.typed (f : IngredientFields) : Text := (trim f.quantity).map fun c => if c = ',' then '.' else c

/-- A number without its sign. -/
def unsigned (t : Text) : Text := if t.head? = some '-' ∨ t.head? = some '+' then t.tail else t

theorem parseQuantity_eq_some (h : parseQuantity f.quantity line = .ok (some v)) :
    parseF64 f.typed = some v ∧ v.isNegative = false := by
  rw [parseQuantity] at h
  split at h
  · cases h
  · split at h
    · cases h
    · rename_i hreads
      split at h
      · cases h
      · rename_i hnegative
        obtain rfl := Option.some.inj (Except.ok.inj h)
        exact ⟨hreads, Bool.eq_false_iff.mpr hnegative⟩

theorem exists_of_mem_mapM {α β ε : Type} {g : α → Except ε β} {l : List α} {out : List β} (h : l.mapM g = .ok out) :
    ∀ b ∈ out, ∃ a ∈ l, g a = .ok b := by
  induction l generalizing out with
  | nil =>
    obtain rfl : [] = out := Except.ok.inj h
    simp
  | cons a l ih =>
    rw [List.mapM_cons] at h
    obtain ⟨b, hb, h⟩ := bind_eq_ok.mp h
    obtain ⟨rest, hrest, h⟩ := bind_eq_ok.mp h
    obtain rfl : b :: rest = out := Except.ok.inj h
    intro c hc
    rcases List.mem_cons.mp hc with rfl | hc
    · exact ⟨a, List.mem_cons_self, hb⟩
    · obtain ⟨a', ha', heq⟩ := ih hrest c hc
      exact ⟨a', List.mem_cons_of_mem _ ha', heq⟩

theorem quantity_accepted {lines : List IngredientFields} {inputs : List IngredientInput}
    (h : parseIngredientFields lines = .ok inputs) (hi : i ∈ inputs) (hv : i.quantity = some v) :
    ∃ f ∈ lines, parseF64 f.typed = some v ∧ v.isNegative = false := by
  obtain ⟨⟨f, k⟩, hf, hparse⟩ := exists_of_mem_mapM h i hi
  have hmem : f ∈ lines := by
    obtain ⟨hf, -⟩ := List.mem_filter.mp hf
    exact List.fst_mem_of_mem_zipIdx hf
  refine ⟨f, hmem, ?_⟩
  rw [parseLine] at hparse
  dsimp only at hparse
  split at hparse
  · cases hparse
  · obtain ⟨quantity, hquantity, hparse⟩ := bind_eq_ok.mp hparse
    obtain ⟨months, -, hparse⟩ := bind_eq_ok.mp hparse
    obtain rfl := Except.ok.inj hparse
    obtain rfl : quantity = some v := hv
    exact parseQuantity_eq_some hquantity

/-- A decimal that rounds to a finite double is accepted as one, and not below zero. -/
theorem finite_accepted {lines : List IngredientFields} {inputs : List IngredientInput}
    (h : parseIngredientFields lines = .ok inputs) (hi : i ∈ inputs) (hv : i.quantity = some v) :
    ∃ f ∈ lines, parseF64 f.typed = some v ∧ v.isNegative = false ∧
      ((∃ q, parseDecimal (unsigned f.typed) = some q ∧ q < 2 ^ 1024 - 2 ^ 970) → ∃ q, v = .finite q ∧ 0 ≤ q) := by
  obtain ⟨f, hf, hreads, hnegative⟩ := quantity_accepted h hi hv
  refine ⟨f, hf, hreads, hnegative, fun ⟨q, hdecimal, hsmall⟩ => ?_⟩
  obtain ⟨hmagnitude, hpos⟩ := parseMagnitude_decimal hdecimal
  obtain ⟨x, -, hx⟩ := ofRat_finite hpos hsmall
  rw [hx] at hmagnitude
  have hfinite : v = .finite x ∨ v = .finite (-x) := by
    rw [parseF64] at hreads
    split at hreads
    · rename_i hminus
      rw [unsigned, if_pos (.inl hminus)] at hmagnitude
      rw [hmagnitude] at hreads
      exact .inr (Option.some.inj hreads).symm
    · rename_i hminus
      split at hreads
      · rename_i hplus
        rw [unsigned, if_pos (.inr hplus)] at hmagnitude
        exact .inl (Option.some.inj (hreads.symm.trans hmagnitude))
      · rename_i hplus
        rw [unsigned, if_neg (not_or.mpr ⟨hminus, hplus⟩)] at hmagnitude
        exact .inl (Option.some.inj (hreads.symm.trans hmagnitude))
  rcases hfinite with rfl | rfl
  · exact ⟨x, rfl, by simpa [F64.isNegative] using hnegative⟩
  · exact ⟨-x, rfl, by simpa [F64.isNegative] using hnegative⟩

/-! ### A form saved untouched -/

/-- What a form shows is read back, and what is shown of that. -/
theorem untouched (display : F64 → Text) :
    (∀ ingredients : List (IngredientResponse Id),
      (∀ r ∈ ingredients, Stored r.toIngredientInput ∧ ∀ q, r.quantity = some (.finite q) → Printed display q) →
      parseIngredientFields (ingredientFields display ingredients) = .ok (ingredients.map (·.toIngredientInput))) ∧
    (∀ t, (∀ s ∈ stepsOf t, ¬Numbered s) → stepsOf ((joinSteps (stepsOf t)).getD []) = (stepsOf t).map collapse) ∧
    (∀ steps, stepsOf ((joinSteps steps).getD []) =
      (((steps.map collapse).filter (· ≠ [])).map withoutStepNumber).filter (· ≠ [])) ∧
    (∀ step, (¬Numbered step ∧ withoutStepNumber step = step) ∨
      ∃ digits sep rest, step = digits ++ sep :: rest ∧ digits ≠ [] ∧ (∀ c ∈ digits, c.isDigit = true) ∧
        (sep = '.' ∨ sep = ')') ∧ (∀ c ∈ rest.head?, isWhitespace c = true) ∧ withoutStepNumber step = trimStart rest) ∧
    ∀ lines inputs, parseIngredientFields lines = .ok inputs → ∀ i ∈ inputs, ∀ v, i.quantity = some v →
      ∃ f ∈ lines, parseF64 f.typed = some v ∧ v.isNegative = false ∧
        ((∃ q, parseDecimal (unsigned f.typed) = some q ∧ q < 2 ^ 1024 - 2 ^ 970) → ∃ q, v = .finite q ∧ 0 ≤ q) :=
  ⟨fun _ h => parseIngredientFields_filled h, fun t h => stepsOf_again t h, fun steps => stepsOf_joinSteps steps,
    fun step => withoutStepNumber_spec step, fun _ _ h _ hi _ hv => finite_accepted h hi hv⟩

/-! ### Half a litre of milk -/

def milk : IngredientResponse ℕ where
  name := "Lait".toList
  quantity := some (.finite (1 / 2))
  unit := some "L".toList
  isOptional := false
  seasonalMonths := some [4, 5]
  id := 7

theorem untouched_milk :
    parseIngredientFields (ingredientFields (fun _ => "0.5".toList) [milk]) = .ok [milk.toIngredientInput] ∧
      stepsOf ((joinSteps (stepsOf "1. Cuire  10 min".toList)).getD []) =
        (stepsOf "1. Cuire  10 min".toList).map collapse := by
  obtain ⟨hfields, hsteps, -⟩ := @untouched ℕ fun _ => "0.5".toList
  refine ⟨hfields [milk] fun r hr => ?_, hsteps _ fun s hs => ?_⟩
  · obtain rfl := List.mem_singleton.mp hr
    refine ⟨⟨by decide, ?_, ?_, ?_⟩, ?_⟩
    · rintro u hu
      obtain rfl := Option.some.inj hu
      decide
    · rintro v hv
      obtain rfl := Option.some.inj hv
      exact ⟨1 / 2, rfl, by norm_num⟩
    · rintro ms hms
      obtain rfl := Option.some.inj hms
      decide
    · intro q hq
      obtain rfl : 1 / 2 = q := by simpa [milk] using hq
      exact ⟨by decide, by decide +kernel⟩
  · have hsteps : stepsOf "1. Cuire  10 min".toList = ["Cuire  10 min".toList] := by decide
    rw [hsteps, List.mem_singleton] at hs
    rintro ⟨digits, sep, rest, heq, hne, hdigits, -⟩
    obtain ⟨d, digits, rfl⟩ := List.exists_cons_of_ne_nil hne
    obtain rfl : 'C' = d := (List.cons.inj (hs.symm.trans heq)).1
    exact absurd (hdigits 'C' List.mem_cons_self) (by decide)

/-- Months stored as an empty list, which the form shows as none. -/
def noMonths : IngredientResponse ℕ := { milk with quantity := none, seasonalMonths := some [] }

/-- A step stored with two spaces is shown with one once saved again, and an empty list of months is saved as none. -/
theorem saved_otherwise : (¬∀ t, stepsOf ((joinSteps (stepsOf t)).getD []) = stepsOf t) ∧
    parseIngredientFields (ingredientFields (fun _ => []) [noMonths]) ≠ .ok [noMonths.toIngredientInput] :=
  ⟨fun h => absurd (h "Cuire  10 min".toList) (by decide), by decide⟩

end Home.Recipes.Form
