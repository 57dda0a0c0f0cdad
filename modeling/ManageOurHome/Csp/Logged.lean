import ManageOurHome.Csp.Redacted

/-! @src apps/api/src/csp_report.rs | layer:proof | family:reports

    The reports of a body, and the lines they leave. Two bodies that differ in the secrets of their URLs alone leave the
    same ones when no path of the reports that are logged is exposed; a path that is could have left another.

        {"csp-report": {document-uri, …}}            one report
        [{"type": "csp-violation", "body": {…}}, …]  one an entry, the first ten -/

namespace Home.CspReport

open Json

/-! ### Two bodies that differ in their secrets alone -/

/-- The fields that are URLs. -/
def Names.urls (names : Names) : List Text := [names.document, names.blocked, names.source]

/-- The same fields, but for values that are related. -/
def SameUnder (R : Text → Value → Value → Prop) (fields fields' : List (Text × Value)) : Prop :=
  List.Forall₂ (fun f f' => f.1 = f'.1 ∧ (f.2 = f'.2 ∨ R f.1 f.2 f'.2)) fields fields'

def SameUrls (names : Names) : List (Text × Value) → List (Text × Value) → Prop :=
  SameUnder fun key v v' => key ∈ names.urls ∧ ∃ t t', v = .String t ∧ v' = .String t' ∧ SameUrl t t'

def SameReport (names : Names) (r r' : Value) : Prop :=
  r = r' ∨ ∃ fields fields', r = .Object fields ∧ r' = .Object fields' ∧ SameUrls names fields fields'

def SameEntry (v v' : Value) : Prop :=
  v = v' ∨ ∃ fields fields', v = .Object fields ∧ v' = .Object fields' ∧
    SameUnder (fun key r r' => key = "body".toList ∧ SameReport REPORTING_API r r') fields fields'

/-- In either of the two shapes. -/
inductive SameBody : Value → Value → Prop where
  | refl (v : Value) : SameBody v v
  | legacy {fields fields' : List (Text × Value)}
      (h : SameUnder (fun key r r' => key = "csp-report".toList ∧ SameReport LEGACY r r') fields fields') :
      SameBody (.Object fields) (.Object fields')
  | batch {entries entries' : List Value} (h : List.Forall₂ SameEntry entries entries') :
      SameBody (.Array entries) (.Array entries')

/-- Bodies that are not JSON differ in nothing. -/
def SameJson (json json' : Option Value) : Prop :=
  json = json' ∨ ∃ v v', json = some v ∧ json' = some v' ∧ SameBody v v'

/-- What is logged of a body holds no secret of its URLs, and forges no line. -/
structure LeaksNothing (json : Option Value) : Prop where
  same : ∀ json', SameJson json json' → violations json' = violations json
  count : (violations json).length ≤ MAX_VIOLATIONS_PER_REQUEST
  bounded : ∀ v ∈ violations json, v.Bounded

/-- One of the reports that are logged, by its fields. -/
def Logged (json : Option Value) (names : Names) (fields : List (Text × Value)) : Prop :=
  ∃ before after, json.elim [] reports = before ++ (.Object fields, names) :: after ∧
    (before.filterMap violation).length < MAX_VIOLATIONS_PER_REQUEST

/-! ### Fields -/

section Fields

variable {R : Text → Value → Value → Prop} {fields fields' before after : List (Text × Value)} {key key' t : Text}
  {v v' : Value} {names : Names}

theorem get_same (h : SameUnder R fields fields') (key : Text) : (get key fields = none ∧ get key fields' = none) ∨
    ∃ v v', get key fields = some v ∧ get key fields' = some v' ∧ (v = v' ∨ R key v v') := by
  induction h with
  | nil => exact .inl ⟨rfl, rfl⟩
  | @cons f f' rest rest' hf _ ih =>
    obtain ⟨hkey, hv⟩ := hf
    rw [Json.get, Json.get, List.find?_cons, List.find?_cons, ← hkey]
    by_cases hk : f.1 = key
    · rw [decide_eq_true hk]
      exact .inr ⟨f.2, f'.2, rfl, rfl, hk ▸ hv⟩
    · rw [decide_eq_false hk]
      exact ih

theorem get_split (h : get key fields = some v) :
    ∃ before after, fields = before ++ (key, v) :: after ∧ ∀ f ∈ before, f.1 ≠ key := by
  obtain ⟨⟨k, w⟩, hfind, rfl⟩ := Option.map_eq_some_iff.mp h
  obtain ⟨hk, before, after, rfl, hbefore⟩ := List.find?_eq_some_iff_append.mp hfind
  obtain rfl : k = key := of_decide_eq_true hk
  refine ⟨before, after, rfl, fun f hf heq => ?_⟩
  have hnot := hbefore f hf
  rw [decide_eq_true heq] at hnot
  exact absurd hnot (by decide)

theorem get_replaced (h : ∀ f ∈ before, f.1 ≠ key) : get key (before ++ (key, v) :: after) = some v := by
  have hnone : before.find? (fun f => f.1 = key) = none :=
    List.find?_eq_none.mpr fun f hf => by simpa using h f hf
  rw [Json.get, List.find?_append, hnone, Option.none_or, List.find?_cons, decide_eq_true rfl]
  rfl

theorem get_replaced_ne (hne : key ≠ key') (v v' : Value) :
    get key' (before ++ (key, v) :: after) = get key' (before ++ (key, v') :: after) := by
  rw [Json.get, Json.get, List.find?_append, List.find?_append, List.find?_cons, List.find?_cons, decide_eq_false hne]

theorem sameUnder_refl (R : Text → Value → Value → Prop) (fields : List (Text × Value)) : SameUnder R fields fields :=
  List.forall₂_same.mpr fun _ _ => ⟨rfl, .inl rfl⟩

theorem sameUnder_replaced (h : R key v v') :
    SameUnder R (before ++ (key, v) :: after) (before ++ (key, v') :: after) :=
  List.rel_append (sameUnder_refl R before) (.cons ⟨rfl, .inr h⟩ (sameUnder_refl R after))

end Fields

/-! ### Violations -/

section Violations

variable {fields fields' : List (Text × Value)} {names : Names} {key t : Text} {r r' v : Value} {x x' : Value × Names}
  {json : Option Value}

/-- No other field is a URL. -/
structure Names.Apart (names : Names) : Prop where
  directive : names.directive ∉ names.urls
  violated : names.violated ∉ names.urls
  line : names.line ∉ names.urls
  disposition : "disposition".toList ∉ names.urls

theorem apart_legacy : LEGACY.Apart := ⟨by decide, by decide, by decide, by decide⟩

theorem apart_reportingApi : REPORTING_API.Apart := ⟨by decide, by decide, by decide, by decide⟩

/-- A report with a path that would have been logged otherwise. -/
def ExposedFields (names : Names) (fields : List (Text × Value)) : Prop :=
  ∃ key ∈ names.urls, ∃ t, textOf fields key = some t ∧ Exposed t

theorem get_of_notMem (h : SameUrls names fields fields') (hkey : key ∉ names.urls) :
    get key fields = get key fields' := by
  obtain ⟨hnone, hnone'⟩ | ⟨v, v', hv, hv', heq | ⟨hmem, -⟩⟩ := get_same h key
  · rw [hnone, hnone']
  · rw [hv, hv', heq]
  · exact absurd hmem hkey

theorem redacted_same (h : SameUrls names fields fields') (hkey : key ∈ names.urls)
    (hexposed : ¬ ExposedFields names fields) :
    (textOf fields key).map redactUrl = (textOf fields' key).map redactUrl := by
  obtain ⟨hnone, hnone'⟩ | ⟨v, v', hv, hv', rfl | ⟨-, t, t', rfl, rfl, hsame⟩⟩ := get_same h key
  · rw [textOf, textOf, hnone, hnone']
  · rw [textOf, textOf, hv, hv']
  · have ht : textOf fields key = some t := by
      rw [textOf, hv]
      rfl
    have ht' : textOf fields' key = some t' := by
      rw [textOf, hv']
      rfl
    have hurl := redactUrl_same hsame fun h => hexposed ⟨key, hkey, t, ht, h⟩
    rw [ht, ht', Option.map_some, Option.map_some, hurl]

theorem redactUrl_getD (o : Option Text) : redactUrl (o.getD []) = (o.map redactUrl).getD (redactUrl []) := by
  cases o with
  | none => rfl
  | some t => rfl

theorem violationOf_same (hapart : names.Apart) (h : SameUrls names fields fields')
    (hexposed : ¬ ExposedFields names fields) : violationOf names fields = violationOf names fields' := by
  have hdocument := redacted_same h (List.mem_cons_self : names.document ∈ names.urls) hexposed
  have hblocked := redacted_same h (List.mem_cons_of_mem _ List.mem_cons_self : names.blocked ∈ names.urls) hexposed
  have hsource := redacted_same h
    (List.mem_cons_of_mem _ (List.mem_cons_of_mem _ List.mem_cons_self) : names.source ∈ names.urls) hexposed
  have htext : ∀ key, key ∉ names.urls → textOf fields key = textOf fields' key := fun key hkey => by
    rw [textOf, textOf, get_of_notMem h hkey]
  rw [violationOf, violationOf, redactUrl_getD, redactUrl_getD, redactUrl_getD (textOf fields' names.document),
    redactUrl_getD (textOf fields' names.blocked), hdocument, hblocked, hsource, htext _ hapart.directive,
    htext _ hapart.violated, htext _ hapart.disposition, get_of_notMem h hapart.line]

/-- One of its URLs is logged otherwise. -/
theorem violationOf_ne (hkey : key ∈ names.urls)
    (hne : (textOf fields key).map redactUrl ≠ (textOf fields' key).map redactUrl)
    (hsome : (textOf fields key).isSome = true) (hsome' : (textOf fields' key).isSome = true) :
    violationOf names fields ≠ violationOf names fields' := by
  obtain ⟨t, ht⟩ := Option.isSome_iff_exists.mp hsome
  obtain ⟨t', ht'⟩ := Option.isSome_iff_exists.mp hsome'
  rw [ht, ht', Option.map_some, Option.map_some] at hne
  intro heq
  rw [violationOf, violationOf, Violation.mk.injEq] at heq
  obtain ⟨hdocument, -, hblocked, hsource, -, -⟩ := heq
  rcases List.mem_cons.mp hkey with rfl | hkey
  · rw [ht, ht'] at hdocument
    exact hne (congrArg some hdocument)
  rcases List.mem_cons.mp hkey with rfl | hkey
  · rw [ht, ht'] at hblocked
    exact hne (congrArg some hblocked)
  · obtain rfl := List.mem_singleton.mp hkey
    rw [ht, ht', Option.map_some, Option.map_some] at hsource
    exact hne hsource

/-- An exposed report could have been another. -/
theorem violationOf_varies (h : ExposedFields names fields) :
    ∃ fields', SameUrls names fields fields' ∧ violationOf names fields ≠ violationOf names fields' := by
  obtain ⟨key, hkey, t, ht, hexposed⟩ := h
  obtain ⟨t', hsame, hne⟩ := redactUrl_varies hexposed
  obtain ⟨v, hv, hstr⟩ := Option.bind_eq_some_iff.mp ht
  obtain rfl : v = .String t := by
    cases v with
    | String s => exact congrArg Value.String (Option.some.inj hstr)
    | _ => cases hstr
  obtain ⟨before, after, rfl, hbefore⟩ := get_split hv
  have ht' : textOf (before ++ (key, .String t') :: after) key = some t' := by
    rw [textOf, get_replaced hbefore]
    rfl
  refine ⟨_, sameUnder_replaced ⟨hkey, t, t', rfl, rfl, hsame⟩, violationOf_ne hkey ?_ ?_ ?_⟩
  · rw [ht, ht', Option.map_some, Option.map_some]
    exact fun heq => hne (Option.some.inj heq)
  · rw [ht]
    rfl
  · rw [ht']
    rfl

/-! ### Reports -/

/-- Two reports in the same place. -/
def SamePlace (x x' : Value × Names) : Prop := x.2 = x'.2 ∧ x.2.Apart ∧ SameReport x.2 x.1 x'.1

theorem reportOf_same {a a' : Value} (h : SameEntry a a') : (reportOf a = none ∧ reportOf a' = none) ∨
    ∃ r r', reportOf a = some r ∧ reportOf a' = some r' ∧ SameReport REPORTING_API r r' := by
  rcases h with rfl | ⟨fields, fields', rfl, rfl, h⟩
  · cases hreport : reportOf a with
    | none => exact .inl ⟨rfl, rfl⟩
    | some r => exact .inr ⟨r, r, rfl, rfl, .inl rfl⟩
  · have htype : get "type".toList fields = get "type".toList fields' := by
      obtain ⟨hnone, hnone'⟩ | ⟨v, v', hv, hv', heq | ⟨hmem, -⟩⟩ := get_same h "type".toList
      · rw [hnone, hnone']
      · rw [hv, hv', heq]
      · exact absurd hmem (by decide)
    rw [reportOf, reportOf, Value.get, Value.get, Value.get, Value.get, htype]
    split
    · obtain ⟨hnone, hnone'⟩ | ⟨r, r', hr, hr', heq⟩ := get_same h "body".toList
      · exact .inl ⟨hnone, hnone'⟩
      · refine .inr ⟨r, r', hr, hr', ?_⟩
        rcases heq with rfl | ⟨-, hsame⟩
        · exact .inl rfl
        · exact hsame
    · exact .inl ⟨rfl, rfl⟩

theorem reports_same {v v' : Value} (h : SameBody v v') : List.Forall₂ SamePlace (reports v) (reports v') := by
  cases h with
  | refl =>
    refine List.forall₂_same.mpr fun x hx => ⟨rfl, ?_, .inl rfl⟩
    cases v with
    | Object legacy =>
      obtain ⟨r, -, rfl⟩ := Option.map_eq_some_iff.mp (Option.mem_toList.mp hx)
      exact apart_legacy
    | Array batch =>
      obtain ⟨r, -, rfl⟩ := List.mem_map.mp hx
      exact apart_reportingApi
    | _ => cases hx
  | legacy h =>
    rename_i fields fields'
    rw [reports, reports]
    obtain ⟨hnone, hnone'⟩ | ⟨r, r', hr, hr', heq⟩ := get_same h "csp-report".toList
    · rw [hnone, hnone']
      exact .nil
    · rw [hr, hr']
      refine .cons ⟨rfl, apart_legacy, ?_⟩ .nil
      rcases heq with rfl | ⟨-, hsame⟩
      · exact .inl rfl
      · exact hsame
  | batch h =>
    rw [reports, reports]
    induction h with
    | nil => exact .nil
    | cons ha _ ih =>
      rcases reportOf_same ha with ⟨hnone, hnone'⟩ | ⟨r, r', hr, hr', hsame⟩
      · rw [List.filterMap_cons_none hnone, List.filterMap_cons_none hnone']
        exact ih
      · rw [List.filterMap_cons_some hr, List.filterMap_cons_some hr']
        exact .cons ⟨rfl, apart_reportingApi, hsame⟩ ih

/-- The reports that are logged leave the same lines. -/
theorem take_violations_same {l l' : List (Value × Names)} (h : List.Forall₂ SamePlace l l') (n : ℕ)
    (hlogged : ∀ before fields names after, l = before ++ (.Object fields, names) :: after →
      (before.filterMap violation).length < n → ¬ ExposedFields names fields) :
    (l.filterMap violation).take n = (l'.filterMap violation).take n := by
  induction h generalizing n with
  | nil => rfl
  | @cons x x' rest rest' hx _ ih =>
    obtain ⟨r, names⟩ := x
    obtain ⟨r', names'⟩ := x'
    obtain ⟨rfl, hapart, hsame⟩ : names = names' ∧ names.Apart ∧ SameReport names r r' := hx
    have hrest : ∀ m, (∀ first, violation (r, names) = some first → m + 1 = n) →
        (violation (r, names) = none → m = n) → ∀ before fields names' after,
        rest = before ++ (.Object fields, names') :: after → (before.filterMap violation).length < m →
        ¬ ExposedFields names' fields := by
      intro m hm hm' before fields names' after heq hlt
      refine hlogged ((r, names) :: before) fields names' after (by rw [heq]; rfl) ?_
      cases hviolation : violation (r, names) with
      | none =>
        rw [List.filterMap_cons_none hviolation, ← hm' hviolation]
        exact hlt
      | some first =>
        rw [List.filterMap_cons_some hviolation, List.length_cons, ← hm first hviolation]
        omega
    have hsome : ∀ fields, r = .Object fields → ∃ fields', r' = .Object fields' ∧ SameUrls names fields fields' := by
      rintro fields rfl
      rcases hsame with rfl | ⟨f, f', heq, rfl, hf⟩
      · exact ⟨fields, rfl, sameUnder_refl _ _⟩
      · cases heq
        exact ⟨f', rfl, hf⟩
    cases hobject : violation (r, names) with
    | none =>
      have hobject' : violation (r', names) = none := by
        rcases hsame with rfl | ⟨f, f', rfl, rfl, -⟩
        · exact hobject
        · cases hobject
      rw [List.filterMap_cons_none hobject, List.filterMap_cons_none hobject']
      exact ih n (hrest n (fun first hfirst => by rw [hobject] at hfirst; cases hfirst) fun _ => rfl)
    | some first =>
      cases r with
      | Object fields =>
        obtain ⟨fields', rfl, hfields⟩ := hsome fields rfl
        cases n with
        | zero => rfl
        | succ m =>
          have hnot := hlogged [] fields names rest rfl (Nat.succ_pos m)
          have hobject' : violation (.Object fields', names) = some first := by
            rw [← hobject]
            exact congrArg some (violationOf_same hapart hfields hnot).symm
          rw [List.filterMap_cons_some hobject, List.filterMap_cons_some hobject', List.take_succ_cons,
            List.take_succ_cons, ih m (hrest m (fun _ _ => rfl) fun hnone => by rw [hobject] at hnone; cases hnone)]
      | _ => cases hobject

/-- Any report of a body could have been another with the same fields but for its URLs. -/
theorem exists_sameBody {before after : List (Value × Names)}
    (h : reports v = before ++ (.Object fields, names) :: after) (hsame : SameUrls names fields fields') :
    ∃ v', SameBody v v' ∧ reports v' = before ++ (.Object fields', names) :: after := by
  cases v with
  | Object legacy =>
    rw [reports] at h
    cases hget : get "csp-report".toList legacy with
    | none =>
      rw [hget] at h
      exact absurd h.symm (List.append_ne_nil_of_right_ne_nil _ (List.cons_ne_nil _ _))
    | some r =>
      rw [hget] at h
      obtain ⟨rfl, hone⟩ : before = [] ∧ [(r, LEGACY)] = (Value.Object fields, names) :: after := by
        cases before with
        | nil => exact ⟨rfl, h⟩
        | cons x before =>
          exact absurd (List.cons.inj h).2.symm (List.append_ne_nil_of_right_ne_nil _ (List.cons_ne_nil _ _))
      obtain ⟨heq, rfl⟩ := List.cons.inj hone
      obtain ⟨rfl, rfl⟩ := Prod.mk.inj heq
      obtain ⟨first, last, rfl, hfirst⟩ := get_split hget
      refine ⟨.Object (first ++ ("csp-report".toList, .Object fields') :: last), .legacy (sameUnder_replaced
        ⟨rfl, .inr ⟨fields, fields', rfl, rfl, hsame⟩⟩), ?_⟩
      rw [reports, get_replaced hfirst]
      rfl
  | Array batch =>
    rw [reports] at h
    obtain ⟨l₁, l₂, hfilter, rfl, hmap⟩ := List.map_eq_append_iff.mp h
    obtain ⟨r, l₃, rfl, hr, rfl⟩ := List.map_eq_cons_iff.mp hmap
    obtain ⟨rfl, rfl⟩ := Prod.mk.inj hr
    obtain ⟨b₁, b₂, rfl, rfl, hb₂⟩ := List.filterMap_eq_append_iff.mp hfilter
    obtain ⟨b₃, a, b₄, rfl, hb₃, ha, rfl⟩ := List.filterMap_eq_cons_iff.mp hb₂
    obtain ⟨entry, rfl, htype, hbody⟩ : ∃ entry, a = .Object entry ∧
        ((Value.Object entry).get "type".toList).bind Value.asStr = some "csp-violation".toList ∧
        get "body".toList entry = some (.Object fields) := by
      rw [reportOf] at ha
      split at ha
      · rename_i htype
        cases a with
        | Object entry => exact ⟨entry, rfl, htype, ha⟩
        | _ => cases ha
      · cases ha
    obtain ⟨first, last, rfl, hfirst⟩ := get_split hbody
    have hreport : reportOf (.Object (first ++ ("body".toList, .Object fields') :: last)) = some (.Object fields') := by
      rw [Value.get, get_replaced_ne (by decide) _ (.Object fields')] at htype
      rw [reportOf, Value.get, if_pos htype]
      exact get_replaced hfirst
    have hrefl : ∀ l : List Value, List.Forall₂ SameEntry l l := fun l => List.forall₂_same.mpr fun _ _ => .inl rfl
    refine ⟨.Array (b₁ ++ (b₃ ++ .Object (first ++ ("body".toList, .Object fields') :: last) :: b₄)), .batch
      (List.rel_append (hrefl b₁) (List.rel_append (hrefl b₃) (.cons (.inr ⟨_, _, rfl, rfl, sameUnder_replaced
        ⟨rfl, .inr ⟨fields, fields', rfl, rfl, hsame⟩⟩⟩) (hrefl b₄)))), ?_⟩
    have hnone : b₃.filterMap reportOf = [] := List.filterMap_eq_nil_iff.mpr hb₃
    rw [reports, List.filterMap_append, List.filterMap_append, hnone, List.filterMap_cons_some hreport, List.nil_append,
      List.map_append, List.map_cons]
  | _ => exact absurd h.symm (List.append_ne_nil_of_right_ne_nil _ (List.cons_ne_nil _ _))

end Violations

/-! ### Bodies -/

section Bodies

variable {json : Option Value} {names : Names} {fields fields' : List (Text × Value)}

/-- A body whose logged reports are not exposed leaves the same lines as any that differs from it in secrets alone. -/
theorem violations_same (h : ∀ names fields, Logged json names fields → ¬ ExposedFields names fields)
    {json' : Option Value} (hsame : SameJson json json') : violations json' = violations json := by
  rcases hsame with rfl | ⟨v, v', rfl, rfl, hsame⟩
  · rfl
  · exact (take_violations_same (reports_same hsame) MAX_VIOLATIONS_PER_REQUEST
      fun before fields names after heq hlt => h names fields ⟨before, after, heq, hlt⟩).symm

/-- One that is exposed could have left others. -/
theorem violations_vary (hlogged : Logged json names fields) (hexposed : ExposedFields names fields) :
    ∃ json', SameJson json json' ∧ violations json' ≠ violations json := by
  obtain ⟨before, after, hreports, hlt⟩ := hlogged
  cases json with
  | none => exact absurd hreports.symm (List.append_ne_nil_of_right_ne_nil _ (List.cons_ne_nil _ _))
  | some v =>
    obtain ⟨fields', hsame, hne⟩ := violationOf_varies hexposed
    obtain ⟨v', hbody, hreports'⟩ := exists_sameBody hreports hsame
    refine ⟨some v', .inr ⟨v, v', rfl, rfl, hbody⟩, fun heq => hne ?_⟩
    have hat : ∀ fields (after : List (Value × Names)),
        (((before ++ (Value.Object fields, names) :: after).filterMap violation).take MAX_VIOLATIONS_PER_REQUEST)[
          (before.filterMap violation).length]? = some (violationOf names fields) := by
      intro fields after
      have hsome : violation (.Object fields, names) = some (violationOf names fields) := rfl
      rw [List.getElem?_take_of_lt hlt, List.filterMap_append, List.filterMap_cons_some hsome,
        List.getElem?_append_right (Nat.le_refl _), Nat.sub_self]
      rfl
    have hread : ∀ v, violations (some v) = ((reports v).filterMap violation).take MAX_VIOLATIONS_PER_REQUEST :=
      fun _ => rfl
    have hviolation := hat fields after
    have hviolation' := hat fields' after
    rw [← hreports] at hviolation
    rw [← hreports', ← hread, heq, hread] at hviolation'
    exact Option.some.inj (hviolation.symm.trans hviolation')

end Bodies

/-- What is logged of a body leaks none of its secrets and forges no line, exactly when no path of the reports that are
    logged has a segment that looks like a token before a "://", or right after the first, in what is kept of it. -/
theorem leaksNothing_iff (json : Option Value) : LeaksNothing json ↔ ∀ names fields, Logged json names fields →
    ∀ key ∈ names.urls, ∀ url, textOf fields key = some url → ¬ Exposed url := by
  constructor
  · intro h names fields hlogged key hkey url hurl hexposed
    obtain ⟨json', hsame, hne⟩ := violations_vary hlogged ⟨key, hkey, url, hurl, hexposed⟩
    exact hne (h.same json' hsame)
  · intro h
    exact {
      same := fun json' => violations_same fun names fields hlogged hexposed => by
        obtain ⟨key, hkey, url, hurl, hexposed⟩ := hexposed
        exact h names fields hlogged key hkey url hurl hexposed
      count := length_violations_le json
      bounded := fun v => bounded_of_mem_violations
    }

/-- A path with a token in it, before an address. -/
def invitation : Text := "/groups/invitations/Zq3k9XvT2mQ8pLw4/https://x".toList

theorem exposed_invitation : Exposed invitation := by
  have hsegment : ∀ s ∈ ["".toList, "groups".toList, "invitations".toList, "Zq3k9XvT2mQ8pLw4".toList, "https:".toList,
      "".toList, "x".toList], encoded pchar s = true := by decide
  refine ⟨["".toList, "groups".toList, "invitations".toList, "Zq3k9XvT2mQ8pLw4".toList, "https:".toList, "".toList,
    "x".toList], [], by decide, ⟨List.cons_ne_nil _ _, hsegment, fun x rest h => ?_⟩, by decide,
    ⟨none, none, rfl, by simp, by simp⟩, _, rfl, (20, "Zq3k9XvT2mQ8pLw4".toList), by decide, by decide, by decide⟩
  cases (List.cons.inj (List.cons.inj h).2).1

/-- The path is logged as it is, token included: with another token, it is another line. -/
theorem invitation_leaks : ¬ ∀ json, LeaksNothing json := by
  intro h
  have hlogged : Logged (some (.Object [("csp-report".toList, .Object [("document-uri".toList, .String invitation)])]))
      LEGACY [("document-uri".toList, .String invitation)] := ⟨[], [], rfl, by decide⟩
  obtain ⟨json', hsame, hne⟩ := violations_vary hlogged
    ⟨"document-uri".toList, by decide, invitation, rfl, exposed_invitation⟩
  exact hne ((h _).same json' hsame)

end Home.CspReport
