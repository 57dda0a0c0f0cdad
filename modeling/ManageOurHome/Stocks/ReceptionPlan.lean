import Mathlib.Data.List.Nodup
import ManageOurHome.Stocks.Reception

/-! @src apps/api/src/stocks/reception.rs | layer:proof | family:stocks

    A lot sent back as proposed is planned as proposed, and what a plan accepts is sound: an article
    goes to a line of its own, to an eligible line of the stock, or to the eligible line an earlier
    article creates. `Planned` is the loop's invariant: each candidate is a stock line, or the new line
    of an article already planned, filed under its grocery item's id.

        done        articles planned so far     a₀ a₁ … aₖ₋₁ │ aₖ …
        candidates  stock ++ new lines of done -/

namespace Home.Stocks

variable {U : Type*} [LinearOrder U] {lowercase : Text → Text}

/-! ### Sent back as proposed -/

/-- The article as the proposal plans it. -/
def Article.unset (a : Article U) : Article U := { a with mode := none }

/-- The article as the form sends it back. -/
def Article.sentBack (a : Article U) (target : Target U) : Article U :=
  { a with mode := some target.mode }

omit [LinearOrder U] in
theorem landing_mode [LinearOrder U] (created : List (U × ℕ)) (id : U) :
    (landing created id).mode = .Merge := by
  rcases landing_cases created id with ⟨creator, _, h⟩ | ⟨_, h⟩
  · rw [h]; rfl
  · rw [h]; rfl

/-- STEP: from the same candidates, the proposal plans, and sent back plans the same. -/
theorem planFrom_sentBack (articles : List (Article U)) :
    ∀ index (candidates : List (StockCandidate U)) created, ∃ targets,
      planFrom lowercase index candidates created (articles.map Article.unset) = .ok targets ∧
      planFrom lowercase index candidates created (articles.zipWith Article.sentBack targets) =
        .ok targets := by
  induction articles with
  | nil => exact fun _ _ _ => ⟨[], rfl, rfl⟩
  | cons a articles ih =>
    intro index candidates created
    have hunset : a.unset.resolve lowercase candidates =
        .ok (mergeTarget lowercase a.line.name a.line.unit a.line.expiresOn candidates) := rfl
    rcases hproposal : mergeTarget lowercase a.line.name a.line.unit a.line.expiresOn candidates
      with _ | id
    · obtain ⟨rest, hrest, hback⟩ := ih (index + 1) (candidates ++ [a.candidate])
        (created ++ [(a.groceryItemId, index)])
      rw [hproposal] at hunset
      have hsent : (a.sentBack (.New : Target U)).resolve lowercase candidates = .ok none := rfl
      refine ⟨.New :: rest, ?_, ?_⟩
      · rw [List.map_cons, planFrom_new hunset]
        exact congrArg (Except.map _) hrest
      · rw [List.zipWith_cons_cons, planFrom_new hsent]
        exact congrArg (Except.map _) hback
    · obtain ⟨rest, hrest, hback⟩ := ih (index + 1) candidates created
      rw [hproposal] at hunset
      have hsent : (a.sentBack (landing created id)).resolve lowercase candidates = .ok (some id) := by
        show resolveTarget (some (landing created id).mode) _ = _
        rw [landing_mode]
        show resolveTarget (some .Merge)
          (mergeTarget lowercase a.line.name a.line.unit a.line.expiresOn candidates) = _
        rw [hproposal]
        rfl
      refine ⟨landing created id :: rest, ?_, ?_⟩
      · rw [List.map_cons, planFrom_merge hunset, hrest]
        rfl
      · rw [List.zipWith_cons_cons, planFrom_merge hsent, hback]
        rfl

/-! ### Where an article lands -/

/-- Where the `j`-th article lands, among the articles and targets of its lot. -/
def Lands (lowercase : Text → Text) (stock : List (StockCandidate U)) (articles : List (Article U))
    (targets : List (Target U)) (j : ℕ) (a : Article U) : Target U → Prop
  | .New => True
  | .Stock id => ∃ c ∈ stock, c.id = id ∧
      eligible lowercase a.line.name a.line.unit a.line.expiresOn c = true
  | .Lot i => i < j ∧ targets[i]? = some .New ∧ ∃ b, articles[i]? = some b ∧
      eligible lowercase a.line.name a.line.unit a.line.expiresOn b.candidate = true

/-- The loop's invariant. -/
structure Planned (lowercase : Text → Text) (stock : List (StockCandidate U))
    (done : List (Article U)) (targets : List (Target U)) (candidates : List (StockCandidate U))
    (created : List (U × ℕ)) : Prop where
  length : targets.length = done.length
  candidate : ∀ c ∈ candidates, c ∈ stock ∨
    ∃ i a, done[i]? = some a ∧ targets[i]? = some .New ∧ c = a.candidate ∧
      (a.groceryItemId, i) ∈ created
  created : ∀ x ∈ created, ∃ a, done[x.2]? = some a ∧ targets[x.2]? = some .New ∧
    a.groceryItemId = x.1
  lands : ∀ j a target, done[j]? = some a → targets[j]? = some target →
    Lands lowercase stock done targets j a target

section

variable {stock candidates : List (StockCandidate U)} {done : List (Article U)}
  {targets : List (Target U)} {created : List (U × ℕ)} {a : Article U}

omit [LinearOrder U] in
theorem getElem?_concat_of_some {α : Type*} {l : List α} {i : ℕ} {x : α} (y : α)
    (h : l[i]? = some x) : (l ++ [y])[i]? = some x := by
  obtain ⟨hlt, _⟩ := List.getElem?_eq_some_iff.mp h
  rw [List.getElem?_append_left hlt, h]

omit [LinearOrder U] in
theorem Lands.concat {j : ℕ} {b : Article U} {target : Target U}
    (h : Lands lowercase stock done targets j b target) (y : Article U) (t : Target U) :
    Lands lowercase stock (done ++ [y]) (targets ++ [t]) j b target := by
  cases target with
  | New => trivial
  | Stock id => exact h
  | Lot i =>
    obtain ⟨hlt, hnew, b', hb', helig⟩ := h
    exact ⟨hlt, getElem?_concat_of_some t hnew, b', getElem?_concat_of_some y hb', helig⟩

omit [LinearOrder U] in
/-- The invariant holds on, once the article has landed. -/
theorem Planned.concat (h : Planned lowercase stock done targets candidates created)
    {target : Target U} {candidates' : List (StockCandidate U)} {created' : List (U × ℕ)}
    (hlands : Lands lowercase stock done targets done.length a target)
    (hcand : ∀ c ∈ candidates', c ∈ candidates ∨
      (target = .New ∧ c = a.candidate ∧ (a.groceryItemId, done.length) ∈ created'))
    (hsub : ∀ x ∈ created, x ∈ created')
    (hcreated : ∀ x ∈ created', x ∈ created ∨ (target = .New ∧ x = (a.groceryItemId, done.length))) :
    Planned lowercase stock (done ++ [a]) (targets ++ [target]) candidates' created' := by
  have hlast : (done ++ [a])[done.length]? = some a := List.getElem?_concat_length
  have hlast' : (targets ++ [target])[done.length]? = some target := by
    rw [← h.length]
    exact List.getElem?_concat_length
  refine ⟨by simp [h.length], fun c hc => ?_, fun x hx => ?_, fun j b t hb ht => ?_⟩
  · rcases hcand c hc with hold | ⟨rfl, hnew, hmem⟩
    · rcases h.candidate c hold with hs | ⟨i, b, hb, ht, hcb, hmem⟩
      · exact Or.inl hs
      · exact Or.inr ⟨i, b, getElem?_concat_of_some a hb, getElem?_concat_of_some target ht, hcb,
          hsub _ hmem⟩
    · exact Or.inr ⟨done.length, a, hlast, hlast', hnew, hmem⟩
  · rcases hcreated x hx with hold | ⟨rfl, rfl⟩
    · obtain ⟨b, hb, ht, hid⟩ := h.created x hold
      exact ⟨b, getElem?_concat_of_some a hb, getElem?_concat_of_some _ ht, hid⟩
    · exact ⟨a, hlast, hlast', rfl⟩
  · rcases Nat.lt_or_ge j done.length with hlt | hge
    · rw [List.getElem?_append_left hlt] at hb
      rw [List.getElem?_append_left (h.length.symm ▸ hlt)] at ht
      exact (h.lands j b t hb ht).concat a target
    · have hj : j = done.length := by
        obtain ⟨hlt, _⟩ := List.getElem?_eq_some_iff.mp hb
        rw [List.length_append, List.length_singleton] at hlt
        omega
      subst hj
      obtain rfl := Option.some.inj (hlast.symm.trans hb)
      obtain rfl := Option.some.inj (hlast'.symm.trans ht)
      exact hlands.concat a target

/-- STEP: a merge lands on an eligible line, of the stock or of the lot. -/
theorem Planned.merge (h : Planned lowercase stock done targets candidates created)
    (hids : (stock.map StockCandidate.id ++ done.map Article.groceryItemId).Nodup) {id : U}
    (hproposal : mergeTarget lowercase a.line.name a.line.unit a.line.expiresOn candidates = some id) :
    (∀ creator, (id, creator) ∈ created →
      Lands lowercase stock done targets done.length a (.Lot creator)) ∧
    ((∀ c ∈ created, c.1 ≠ id) → Lands lowercase stock done targets done.length a (.Stock id)) := by
  obtain ⟨c, hc, rfl, helig⟩ := mergeTarget_spec hproposal
  obtain ⟨_, hdone, hdisjoint⟩ := List.nodup_append.mp hids
  refine ⟨fun creator hmem => ?_, fun hnot => ?_⟩
  · obtain ⟨b, hb, hnew, hid⟩ := h.created _ hmem
    obtain ⟨hlt, hbget⟩ := List.getElem?_eq_some_iff.mp hb
    refine ⟨hlt, hnew, b, hb, ?_⟩
    have hbmem : b.groceryItemId ∈ done.map Article.groceryItemId :=
      List.mem_map_of_mem (List.mem_of_getElem? hb)
    rcases h.candidate c hc with hs | ⟨i, b', hb', _, rfl, _⟩
    · exact absurd hid.symm (hdisjoint _ (List.mem_map_of_mem hs) _ hbmem)
    · -- one grocery item, one article
      obtain ⟨hlt', hbget'⟩ := List.getElem?_eq_some_iff.mp hb'
      have hsame : i = creator := by
        refine (@List.Nodup.getElem_inj_iff _ _ hdone i (by simpa using hlt') creator
          (by simpa using hlt)).mp ?_
        rw [List.getElem_map, List.getElem_map, hbget', hbget]
        exact hid.symm
      subst hsame
      obtain rfl := Option.some.inj (hb.symm.trans hb')
      exact helig
  · rcases h.candidate c hc with hs | ⟨i, b', _, _, rfl, hmem⟩
    · exact ⟨c, hs, rfl, helig⟩
    · exact absurd rfl (hnot _ hmem)

end

/-- RUN: the invariant holds of the whole lot once planned. -/
theorem Planned.run {stock : List (StockCandidate U)} (articles : List (Article U)) :
    ∀ {done targets candidates created rest},
      Planned lowercase stock done targets candidates created →
      (stock.map StockCandidate.id ++ (done ++ articles).map Article.groceryItemId).Nodup →
      planFrom lowercase done.length candidates created articles = .ok rest →
      ∃ candidates' created',
        Planned lowercase stock (done ++ articles) (targets ++ rest) candidates' created' := by
  induction articles with
  | nil =>
    intro done targets candidates created rest h _ hplan
    obtain rfl := Except.ok.inj hplan
    exact ⟨candidates, created, by simpa using h⟩
  | cons a articles ih =>
    intro done targets candidates created rest h hids hplan
    have hassoc : done ++ a :: articles = (done ++ [a]) ++ articles := by simp
    have hdone : (stock.map StockCandidate.id ++ done.map Article.groceryItemId).Nodup := by
      refine hids.sublist (List.Sublist.append_left ?_ _)
      exact (List.sublist_append_left done _).map _
    have hlen : done.length + 1 = (done ++ [a]).length := by simp
    rcases hres : a.resolve lowercase candidates with e | _ | id
    · rw [planFrom_error hres] at hplan
      exact absurd hplan (by simp)
    rotate_left
    · rw [planFrom_merge hres] at hplan
      rcases htail : planFrom lowercase (done.length + 1) candidates created articles with e | tail
      · rw [htail] at hplan
        exact absurd hplan (by simp [Except.map])
      rw [htail] at hplan
      obtain rfl := Except.ok.inj hplan
      obtain ⟨hlot, hstock⟩ := h.merge hdone (Article.resolve_some hres)
      have hlands : Lands lowercase stock done targets done.length a (landing created id) := by
        rcases landing_cases created id with ⟨creator, hmem, heq⟩ | ⟨hnot, heq⟩
        · rw [heq]; exact hlot creator hmem
        · rw [heq]; exact hstock hnot
      have hkeep := h.concat hlands (fun c hc => Or.inl hc) (fun _ hx => hx) (fun x hx => Or.inl hx)
      rw [hlen] at htail
      obtain ⟨cs, cr, hp⟩ := ih hkeep (by rw [← hassoc]; exact hids) htail
      exact ⟨cs, cr, by rw [hassoc]; simpa using hp⟩
    · have hnew : Planned lowercase stock (done ++ [a]) (targets ++ [.New])
          (candidates ++ [a.candidate]) (created ++ [(a.groceryItemId, done.length)]) := by
        refine h.concat trivial (fun c hc => ?_) (fun x hx => List.mem_append_left _ hx)
          (fun x hx => ?_)
        · rcases List.mem_append.mp hc with hc | hc
          · exact Or.inl hc
          · exact Or.inr ⟨rfl, List.mem_singleton.mp hc, List.mem_append_right _ List.mem_cons_self⟩
        · rcases List.mem_append.mp hx with hx | hx
          · exact Or.inl hx
          · exact Or.inr ⟨rfl, List.mem_singleton.mp hx⟩
      rw [planFrom_new hres] at hplan
      rcases htail : planFrom lowercase (done.length + 1) (candidates ++ [a.candidate])
        (created ++ [(a.groceryItemId, done.length)]) articles with e | tail
      · rw [htail] at hplan
        exact absurd hplan (by simp [Except.map])
      rw [htail] at hplan
      obtain rfl := Except.ok.inj hplan
      rw [hlen] at htail
      obtain ⟨cs, cr, hp⟩ := ih hnew (by rw [← hassoc]; exact hids) htail
      exact ⟨cs, cr, by rw [hassoc]; simpa using hp⟩

/-- The plan depends on what the stock lines are, not on their order. -/
theorem planFrom_perm (articles : List (Article U)) :
    ∀ index {candidates candidates' : List (StockCandidate U)} created,
      candidates.Perm candidates' →
      planFrom lowercase index candidates created articles =
        planFrom lowercase index candidates' created articles := by
  induction articles with
  | nil => exact fun _ _ _ _ _ => rfl
  | cons a articles ih =>
    intro index candidates candidates' created h
    rw [planFrom, planFrom, mergeTarget_perm h, ih (index + 1) created h,
      ih (index + 1) (created ++ [(a.groceryItemId, index)]) (h.append_right [a.candidate])]

/-- CORRECT: a lot sent back as proposed is planned as proposed; in a lot the plan accepts, an article
    merged into a line of the lot has that line made before it, by an article of its own, of the same
    name, unit and date if one is typed; one merged into the stock has an eligible line there; and the
    order of the stock does not matter. -/
theorem planned_as_proposed (articles : List (Article U)) (stock : List (StockCandidate U))
    (hids : (stock.map StockCandidate.id ++ articles.map Article.groceryItemId).Nodup) :
    (∃ targets, plan lowercase (articles.map Article.unset) stock = .ok targets ∧
      plan lowercase (articles.zipWith Article.sentBack targets) stock = .ok targets) ∧
    (∀ targets : List (Target U), plan lowercase articles stock = .ok targets →
      targets.length = articles.length ∧
      (∀ i j : ℕ, targets[j]? = some (.Lot i) → i < j ∧ targets[i]? = some .New ∧
        ∃ a b, articles[i]? = some a ∧ articles[j]? = some b ∧
          articleKey lowercase a.line.name = articleKey lowercase b.line.name ∧
          articleKey lowercase a.line.unit = articleKey lowercase b.line.unit ∧
          (b.line.expiresOn = none ∨ a.line.expiresOn = b.line.expiresOn)) ∧
      ∀ (j : ℕ) id, targets[j]? = some (.Stock id) → ∃ b, articles[j]? = some b ∧
        ∃ c ∈ stock, c.id = id ∧
          eligible lowercase b.line.name b.line.unit b.line.expiresOn c = true) ∧
    ∀ stock', stock.Perm stock' → plan lowercase articles stock' = plan lowercase articles stock := by
  refine ⟨planFrom_sentBack articles 0 stock [], fun targets hplan => ?_, fun stock' hperm =>
    (planFrom_perm articles 0 [] hperm).symm⟩
  have hinit : Planned lowercase stock [] [] stock [] :=
    ⟨rfl, fun c hc => Or.inl hc, fun x hx => absurd hx List.not_mem_nil,
      fun j a t hj => absurd hj (by simp)⟩
  obtain ⟨_, _, h⟩ := Planned.run articles hinit (by simpa using hids) hplan
  simp only [List.nil_append] at h
  have hat : ∀ j target, targets[j]? = some target → ∃ b, articles[j]? = some b := fun j target ht => by
    obtain ⟨hlt, _⟩ := List.getElem?_eq_some_iff.mp ht
    exact ⟨_, List.getElem?_eq_getElem (h.length ▸ hlt)⟩
  refine ⟨h.length, fun i j ht => ?_, fun j id ht => ?_⟩
  · obtain ⟨b, hb⟩ := hat j _ ht
    obtain ⟨hlt, hnew, a, ha, helig⟩ := h.lands j b _ hb ht
    obtain ⟨hname, hunit, hdate⟩ := eligible_iff.mp helig
    exact ⟨hlt, hnew, a, b, ha, hb, hname, hunit, hdate⟩
  · obtain ⟨b, hb⟩ := hat j _ ht
    exact ⟨b, hb, h.lands j b _ hb ht⟩

/-- Two « lait » and a « pain », with one « pain » in stock: a new line, then a merge into it, and a
    merge into the stock. -/
theorem planned_as_proposed_milk : ∃ targets : List (Target ℕ),
    plan id [⟨1, ⟨['l'], 1, ['u'], none⟩, none⟩, ⟨2, ⟨['l'], 1, ['u'], none⟩, none⟩,
      ⟨3, ⟨['p'], 1, ['u'], none⟩, none⟩] [⟨17, ['p'], ['u'], none⟩] = .ok targets ∧
    targets.length = 3 := by
  have h := @planned_as_proposed ℕ _ id [⟨1, ⟨['l'], 1, ['u'], none⟩, none⟩,
    ⟨2, ⟨['l'], 1, ['u'], none⟩, none⟩, ⟨3, ⟨['p'], 1, ['u'], none⟩, none⟩]
    [⟨17, ['p'], ['u'], none⟩] (by decide)
  obtain ⟨targets, hplan, _⟩ := h.1
  exact ⟨targets, hplan, (h.2.1 targets hplan).1⟩

end Home.Stocks
