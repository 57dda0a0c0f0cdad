import Mathlib.Data.Finset.Card
import ManageOurHome.Budget.Entries

/-! @src apps/api/src/budget/entries.rs | layer:proof | family:budget

    A grocery item is paid for once. Every insert of a link runs under the family's lock, so the links a
    holder sees can only go meanwhile, with the deletion of an expense; what it checked still holds when
    it inserts, and the unique key of the item is never what refuses it.

        holder   taken? no ──────────────────▶ DELETE others ─▶ INSERT links ─▶ commit
        others        DELETE an expense, its links with it -/

namespace Home.Budget

open FiniteMap ReadCommitted Relation

variable {U E C I : Type*} [DecidableEq U] [DecidableEq E] [DecidableEq C] [DecidableEq I]

/-- The expense is linked to the item. -/
def Linked (rows : Rows U E C I) (e : E) (i : I) : Prop := (rows.get (.link e i)).isSome

instance (rows : Rows U E C I) (e : E) (i : I) : Decidable (Linked rows e i) :=
  inferInstanceAs (Decidable (_ = true))

/-- The links: an item is paid for once, an expense pays for a hundred at most, and is there. -/
structure LinksOk (rows : Rows U E C I) : Prop where
  one : ∀ i e e', Linked rows e i → Linked rows e' i → e = e'
  bound : ∀ e, (linkedItems rows e).card ≤ GROCERY_ITEMS_MAX
  entry : ∀ e i, Linked rows e i → (rows.get (.entry e)).isSome

section

variable {rows rows' : Rows U E C I} {e : E} {i : I} {items : List I}

omit [DecidableEq U] [DecidableEq C] in
theorem mem_linkedItems : i ∈ linkedItems rows e ↔ Linked rows e i := by
  rw [linkedItems, Finset.mem_biUnion]
  constructor
  · rintro ⟨k, hk, hi⟩
    cases k with
    | link e' i' =>
      by_cases he : e' = e
      · simp only [if_pos he] at hi
        rw [Finset.mem_singleton.mp hi, ← he]
        exact (rows.mem_keys _).mp hk
      · simp only [if_neg he] at hi
        exact absurd hi (Finset.notMem_empty i)
    | _ => exact absurd hi (Finset.notMem_empty i)
  · intro h
    exact ⟨.link e i, (rows.mem_keys _).mpr h, by simp⟩

omit [DecidableEq U] [DecidableEq C] in
theorem mem_linkedEntries : e ∈ linkedEntries rows i ↔ Linked rows e i := by
  rw [linkedEntries, Finset.mem_biUnion]
  constructor
  · rintro ⟨k, hk, he⟩
    cases k with
    | link e' i' =>
      by_cases hi : i' = i
      · simp only [if_pos hi] at he
        rw [Finset.mem_singleton.mp he, ← hi]
        exact (rows.mem_keys _).mp hk
      · simp only [if_neg hi] at he
        exact absurd he (Finset.notMem_empty e)
    | _ => exact absurd he (Finset.notMem_empty e)
  · intro h
    exact ⟨.link e i, (rows.mem_keys _).mpr h, by simp⟩

omit [DecidableEq U] [DecidableEq C] in
theorem taken_iff : taken rows e items = true ↔ ∃ i ∈ items, ∃ e', Linked rows e' i ∧ e' ≠ e := by
  simp only [taken, List.any_eq_true, decide_eq_true_iff, mem_linkedEntries]

omit [DecidableEq U] [DecidableEq C] in
/-- Fewer links are links as good. -/
theorem LinksOk.mono (h : LinksOk rows) (hsub : ∀ e i, Linked rows' e i → Linked rows e i)
    (hentry : ∀ e i, Linked rows' e i → (rows'.get (.entry e)).isSome) : LinksOk rows' where
  one i e e' he he' := h.one i e e' (hsub e i he) (hsub e' i he')
  bound e := (Finset.card_le_card fun i hi => mem_linkedItems.mpr
    (hsub e i (mem_linkedItems.mp hi))).trans (h.bound e)
  entry := hentry

omit [DecidableEq U] [DecidableEq E] [DecidableEq C] in
theorem length_of_groceryItemIds {ids : List I} (h : groceryItemIds ids = .ok items) :
    items.length ≤ GROCERY_ITEMS_MAX := by
  rw [groceryItemIds] at h
  split at h
  · exact absurd h (by simp)
  · rename_i hle
    obtain rfl := Except.ok.inj h
    exact not_lt.mp hle

end

/-! ### What a transaction knows of the links -/

/-- The links a write plans: few enough, or the first of its item. -/
def Write.Ready (rows : Rows U E C I) (w : Write U E C I) : Prop :=
  match w.links with
  | .keep => True
  | .set items => items.length ≤ GROCERY_ITEMS_MAX
  | .priced item => (∃ entry, w.change = .insert entry) ∧ ∀ e, ¬Linked rows e item

/-- What holds of the links seen, statement by statement. -/
def Pc.plan (rows : Rows U E C I) : Pc U E C I → Prop
  | .dating _ _ items | .settling (.dating _ _ items) | .locking (.dating _ _ items) =>
    items.length ≤ GROCERY_ITEMS_MAX
  | .redating p _ none => ∀ e, ¬Linked rows e p.item
  | .watching w | .settling (.watching w) | .locking (.watching w) | .capping w _ | .totalling w _ _
  | .writing w _ => w.Ready rows
  | .finding _ _ items | .taking _ _ items => items.length ≤ GROCERY_ITEMS_MAX
  | .dropping w _ items => items.length ≤ GROCERY_ITEMS_MAX ∧
    ∀ i ∈ items, ∀ e, Linked rows e i → e = w.id
  | .adding w _ items => items.length ≤ GROCERY_ITEMS_MAX ∧
    (∀ i ∈ items, ∀ e, Linked rows e i → e = w.id) ∧ ∀ i, Linked rows w.id i → i ∈ items
  | .attaching w _ item => (∀ e, ¬Linked rows e item) ∧ ∀ i, ¬Linked rows w.id i
  | .uniqueViolation => False
  | _ => True

/-- Whether the family's lock is held. -/
def Pc.locked : Pc U E C I → Prop
  | .requiringCategory d | .requiringPayer d => ∃ spentAt items, d.goal = .update spentAt items
  | .dating _ _ items => items ≠ []
  | .rereading .. | .naming .. | .linking .. | .redating .. => True
  | .watching w | .settling (.watching w) | .locking (.watching w) | .capping w _ | .totalling w _ _
  | .writing w _ => w.links ≠ .keep
  | .finding .. | .taking .. | .dropping .. | .adding .. | .attaching .. => True
  | _ => False

/-- The expense written, its links to come. -/
def Pc.wrote : Pc U E C I → E → Prop
  | .finding w .., e | .taking w .., e | .dropping w .., e | .adding w .., e | .attaching w .., e =>
    e = w.id
  | _, _ => False

/-- What may follow a statement that leads to no link. -/
structure Pc.Follows (rows : Rows U E C I) (held : Prop) (pc : Pc U E C I) : Prop where
  plan : pc.plan rows
  locked : pc.locked → held
  wrote : ∀ e, ¬pc.wrote e

omit [DecidableEq U] [DecidableEq E] [DecidableEq C] [DecidableEq I] in
theorem Write.Ready.mono {rows rows' : Rows U E C I} {w : Write U E C I} (h : w.Ready rows)
    (hsub : ∀ e i, Linked rows' e i → Linked rows e i) : w.Ready rows' := by
  rw [Ready] at *
  split
  · trivial
  · rename_i hl
    rw [hl] at h
    exact h
  · rename_i hl
    rw [hl] at h
    exact ⟨h.1, fun e he => h.2 e (hsub e _ he)⟩

omit [DecidableEq U] [DecidableEq E] [DecidableEq C] [DecidableEq I] in
theorem Pc.plan_mono {rows rows' : Rows U E C I} {pc : Pc U E C I} (h : pc.plan rows)
    (hsub : ∀ e i, Linked rows' e i → Linked rows e i) : pc.plan rows' := by
  cases pc with
  | dating | finding | taking => exact h
  | settling k | locking k =>
    cases k with
    | watching w => exact Write.Ready.mono h hsub
    | _ => exact h
  | redating p name linked =>
    cases linked with
    | none => exact fun e he => h e (hsub e _ he)
    | some => trivial
  | watching w | capping w | totalling w | writing w => exact Write.Ready.mono h hsub
  | dropping w watch items => exact ⟨h.1, fun i hi e he => h.2 i hi e (hsub e i he)⟩
  | adding w watch items =>
    exact ⟨h.1, fun i hi e he => h.2.1 i hi e (hsub e i he), fun i hi => h.2.2 i (hsub _ i hi)⟩
  | attaching w watch item => exact ⟨fun e he => h.1 e (hsub e _ he), fun i hi => h.2 i (hsub _ i hi)⟩
  | uniqueViolation => exact h
  | _ => trivial

omit [DecidableEq U] [DecidableEq E] [DecidableEq C] [DecidableEq I] in
/-- Without the lock, nothing is known of the links. -/
theorem Pc.plan_of_unlocked {rows rows' : Rows U E C I} {pc : Pc U E C I} (hfree : ¬pc.locked)
    (h : pc.plan rows) : pc.plan rows' := by
  have hready : ∀ w : Write U E C I, ¬w.links ≠ .keep → w.Ready rows' := fun w hw => by
    rw [Write.Ready, not_ne_iff.mp hw]
    trivial
  cases pc with
  | dating | finding | taking => exact h
  | settling k | locking k =>
    cases k with
    | watching w => exact hready w hfree
    | _ => exact h
  | watching w | capping w | totalling w | writing w => exact hready w hfree
  | redating p name linked => exact absurd trivial hfree
  | dropping | adding | attaching => exact absurd trivial hfree
  | uniqueViolation => exact h
  | _ => trivial

/-- The local invariant. -/
structure Linking (s : Shared (Key U E C I) (Row U C) E)
    (t : Tx (Key U E C I) (Row U C) Empty (Pc U E C I)) : Prop where
  links : LinksOk (t.visible s.rows)
  /-- Links are inserted under the family's lock, for an expense held. -/
  insert : ∀ e i r, t.pending.get (.link e i) = some (some r) →
    (t.pending.get .settings).isSome ∧ (t.pending.get (.entry e)).isSome
  locked : t.at_.locked → (t.pending.get .settings).isSome
  wrote : ∀ e, t.at_.wrote e → ∃ r, t.pending.get (.entry e) = some (some r)
  plan : t.at_.plan (t.visible s.rows)

section

variable {s : Shared (Key U E C I) (Row U C) E}
  {t t' u : Tx (Key U E C I) (Row U C) Empty (Pc U E C I)} {cal : Calendar} {roundCents : ℚ → ℕ}

/-- What another transaction commits leaves the local invariant. -/
theorem Linking.beside (h : Linking s t) (hu : Linking s u) (hapart : t.Apart u) (a : E) :
    Linking (s.commit u a) t := by
  have hcommit : ∀ k, t.pending.get k = none →
      (t.visible (s.commit u a).rows).get k = (u.visible s.rows).get k := fun k hk => by
    show (FMap.patch (u.visible s.rows) t.pending).get k = _
    rw [FMap.get_patch, hk]
    rfl
  have hown : ∀ {k o}, t.pending.get k = some o →
      (t.visible (s.commit u a).rows).get k = (t.visible s.rows).get k := fun {k o} hk => by
    show (FMap.patch (u.visible s.rows) t.pending).get k = (FMap.patch s.rows t.pending).get k
    rw [FMap.get_patch, FMap.get_patch, hk]
    rfl
  have hapart' : ∀ {k}, (t.pending.get k).isSome → u.pending.get k = none := fun {k} hk => by
    obtain ⟨o, ho⟩ := Option.isSome_iff_exists.mp hk
    exact hapart.symm.get_eq_none ho
  -- a link left alone by both is one of the committed rows
  have hboth : ∀ {k}, t.pending.get k = none → u.pending.get k = none →
      (t.visible s.rows).get k = (u.visible s.rows).get k := fun {k} ht hu => by
    rw [Tx.visible, Tx.visible, FMap.get_patch, FMap.get_patch, ht, hu]
  by_cases hlock : (t.pending.get .settings).isSome
  · -- `u` has inserted no link
    have hsub : ∀ e i, Linked (t.visible (s.commit u a).rows) e i → Linked (t.visible s.rows) e i :=
      fun e i hl => by
        rcases hp : t.pending.get (.link e i) with _ | o
        · rw [Linked, hcommit _ hp] at hl
          rcases hq : u.pending.get (.link e i) with _ | o
          · rw [Linked, hboth hp hq]
            exact hl
          · rcases o with _ | r
            · rw [Tx.visible, FMap.get_patch, hq] at hl
              exact absurd hl (by simp)
            · have := (hu.insert e i r hq).1
              rw [hapart' hlock] at this
              exact absurd this (by simp)
        · rw [Linked, hown hp] at hl
          exact hl
    refine ⟨h.links.mono hsub fun e i hl => ?_, h.insert, h.locked, h.wrote, Pc.plan_mono h.plan hsub⟩
    have hthere := h.links.entry e i (hsub e i hl)
    rcases hp : t.pending.get (.entry e) with _ | o
    · rw [hcommit _ hp]
      rcases hq : t.pending.get (.link e i) with _ | o
      · rw [Linked, hcommit _ hq] at hl
        exact hu.links.entry e i hl
      · rcases o with _ | r
        · rw [Linked, hown hq, Tx.visible, FMap.get_patch, hq] at hl
          exact absurd hl (by simp)
        · have := (h.insert e i r hq).2
          rw [hp] at this
          exact absurd this (by simp)
    · rw [hown hp]
      exact hthere
  · -- `t` has inserted no link
    have hnone : ∀ e i r, t.pending.get (.link e i) ≠ some (some r) := fun e i r hr =>
      hlock (h.insert e i r hr).1
    have hpend : ∀ e i, Linked (t.visible (s.commit u a).rows) e i → t.pending.get (.link e i) = none :=
      fun e i hl => by
        rcases hp : t.pending.get (.link e i) with _ | o
        · rfl
        · rcases o with _ | r
          · rw [Linked, hown hp, Tx.visible, FMap.get_patch, hp] at hl
            exact absurd hl (by simp)
          · exact absurd hp (hnone e i r)
    have hsub : ∀ e i, Linked (t.visible (s.commit u a).rows) e i → Linked (u.visible s.rows) e i :=
      fun e i hl => by
        have hp := hpend e i hl
        rw [Linked, hcommit _ hp] at hl
        exact hl
    refine ⟨hu.links.mono hsub fun e i hl => ?_, h.insert, h.locked, h.wrote, ?_⟩
    · have hthere := hu.links.entry e i (hsub e i hl)
      rcases hp : t.pending.get (.entry e) with _ | o
      · rw [hcommit _ hp]
        exact hthere
      · -- had `t` deleted the expense, its links would be gone
        rw [hown hp]
        rcases hq : u.pending.get (.link e i) with _ | o'
        · refine h.links.entry e i ?_
          rw [Linked, hboth (hpend e i hl) hq]
          exact hsub e i hl
        · rcases o' with _ | r
          · have := hsub e i hl
            rw [Linked, Tx.visible, FMap.get_patch, hq] at this
            exact absurd this (by simp)
          · have := (hu.insert e i r hq).2
            rw [hapart' (by rw [hp]; rfl)] at this
            exact absurd this (by simp)
    · exact Pc.plan_of_unlocked (fun hl => hlock (h.locked hl)) h.plan

/-! ### Each statement -/

/-- A statement that writes. -/
theorem Linking.written (h : Linking s t) {pc : Pc U E C I}
    {change : FMap (Key U E C I) (Option (Row U C))}
    (hlinks : LinksOk ((t.visible s.rows).patch change))
    (hinsert : ∀ e i r, change.get (.link e i) = some (some r) →
      (t.pending.get .settings).isSome ∧ (t.pending.get (.entry e)).isSome)
    (hlocked : pc.locked → (t.pending.get .settings).isSome ∨ (change.get .settings).isSome)
    (hwrote : ∀ e, pc.wrote e → (∃ r, t.pending.get (.entry e) = some (some r) ∧
      change.get (.entry e) = none) ∨ ∃ r, change.get (.entry e) = some (some r))
    (hplan : pc.plan ((t.visible s.rows).patch change)) :
    Linking s ⟨pc, t.pending.merge change, t.locks⟩ := by
  have hvisible : (⟨pc, t.pending.merge change, t.locks⟩ : Tx _ _ Empty _).visible s.rows =
      (t.visible s.rows).patch change := FMap.patch_merge _ _ _
  have hkeep : ∀ k, (t.pending.get k).isSome ∨ (change.get k).isSome →
      ((t.pending.merge change).get k).isSome := fun k hk => by
    rw [FMap.get_merge]
    rcases hc : change.get k with _ | o
    · rw [hc] at hk
      simpa using hk
    · rfl
  refine ⟨hvisible ▸ hlinks, fun e i r hr => ?_, fun hl => hkeep _ (hlocked hl), fun e he => ?_,
    hvisible ▸ hplan⟩
  · rw [FMap.get_merge] at hr
    have hthere : (t.pending.get .settings).isSome ∧ (t.pending.get (.entry e)).isSome := by
      rcases hc : change.get (.link e i) with _ | o
      · rw [hc] at hr
        exact h.insert e i r hr
      · rw [hc] at hr
        exact hinsert e i r (hc.trans hr)
    exact ⟨hkeep _ (Or.inl hthere.1), hkeep _ (Or.inl hthere.2)⟩
  · rcases hwrote e he with ⟨r, hr, hc⟩ | ⟨r, hr⟩
    · exact ⟨r, by rw [FMap.get_merge, hc]; exact hr⟩
    · exact ⟨r, by rw [FMap.get_merge, hr]; rfl⟩

/-- A statement that writes no link and deletes no expense. -/
theorem Linking.quiet (h : Linking s t) {pc : Pc U E C I} {change : FMap (Key U E C I) (Option (Row U C))}
    (hlink : ∀ e i, change.get (.link e i) = none) (hentry : ∀ e, change.get (.entry e) ≠ some none)
    (hlocked : pc.locked → (t.pending.get .settings).isSome ∨ (change.get .settings).isSome)
    (hwrote : ∀ e, pc.wrote e → (∃ r, t.pending.get (.entry e) = some (some r) ∧
      change.get (.entry e) = none) ∨ ∃ r, change.get (.entry e) = some (some r))
    (hplan : pc.plan (t.visible s.rows)) : Linking s ⟨pc, t.pending.merge change, t.locks⟩ := by
  have hsame : ∀ e i, Linked ((t.visible s.rows).patch change) e i → Linked (t.visible s.rows) e i :=
    fun e i hl => by
      rw [Linked, FMap.get_patch, hlink] at hl
      exact hl
  refine h.written (h.links.mono hsame fun e i hl => ?_)
    (fun e i r hr => absurd ((hlink e i).symm.trans hr) (by simp)) hlocked hwrote
    (Pc.plan_mono hplan hsame)
  rw [FMap.get_patch]
  rcases hc : change.get (.entry e) with _ | _ | r
  · exact h.links.entry e i (hsame e i hl)
  · exact absurd hc (hentry e)
  · rfl

/-- Rows held as they are, no link among them. -/
theorem Linking.touch (h : Linking s t) {pc : Pc U E C I} {p : Key U E C I → Row U C → Bool}
    (hp : ∀ e i v, p (.link e i) v = false)
    (hlocked : pc.locked → (t.pending.get .settings).isSome ∨
      ((FMap.touch p (t.visible s.rows)).get .settings).isSome)
    (hwrote : ∀ e, ¬pc.wrote e) (hplan : pc.plan (t.visible s.rows)) :
    Linking s ⟨pc, t.pending.merge (FMap.touch p (t.visible s.rows)), t.locks⟩ := by
  refine h.quiet (fun e i => ?_) (fun e ho => ?_) hlocked (fun e he => absurd he (hwrote e)) hplan
  · by_contra ho
    obtain ⟨o, ho⟩ := Option.ne_none_iff_exists'.mp ho
    obtain ⟨v, _, hv, _⟩ := FMap.get_touch.mp ho
    exact absurd hv (by rw [hp]; simp)
  · obtain ⟨v, _, _, hv⟩ := FMap.get_touch.mp ho
    exact absurd hv (by simp)

/-- A statement that deletes links, and expenses with all their links. -/
theorem Linking.unlink (h : Linking s t) {pc : Pc U E C I} {change : FMap (Key U E C I) (Option (Row U C))}
    (hgone : ∀ k o, change.get k = some o → o = none)
    (hentry : ∀ e i, (change.get (.entry e)).isSome → Linked (t.visible s.rows) e i →
      (change.get (.link e i)).isSome)
    (hlocked : pc.locked → (t.pending.get .settings).isSome)
    (hwrote : ∀ e, pc.wrote e → (∃ r, t.pending.get (.entry e) = some (some r)) ∧
      change.get (.entry e) = none)
    (hplan : pc.plan ((t.visible s.rows).patch change)) :
    Linking s ⟨pc, t.pending.merge change, t.locks⟩ := by
  have hsome : ∀ k, (((t.visible s.rows).patch change).get k).isSome →
      change.get k = none ∧ ((t.visible s.rows).get k).isSome := fun k hk => by
    rw [FMap.get_patch] at hk
    rcases hc : change.get k with _ | o
    · rw [hc] at hk
      exact ⟨rfl, hk⟩
    · rw [hc, hgone k o hc] at hk
      exact absurd hk (by simp)
  refine h.written (h.links.mono (fun e i hl => (hsome _ hl).2) fun e i hl => ?_)
    (fun e i r hr => absurd (hgone _ _ hr) (by simp)) (fun hl => Or.inl (hlocked hl))
    (fun e he => Or.inl ⟨_, (hwrote e he).1.choose_spec, (hwrote e he).2⟩) hplan
  have hnone : change.get (.entry e) = none := by
    by_contra hc
    have := hentry e i (Option.ne_none_iff_isSome.mp hc) (hsome _ hl).2
    rw [(hsome _ hl).1] at this
    exact absurd this (by simp)
  rw [FMap.get_patch, hnone]
  exact h.links.entry e i (hsome _ hl).2

/-- Links inserted on a held expense, of items no other expense is linked to. -/
theorem Linking.link (h : Linking s t) {pc : Pc U E C I} {e : E} {items : List I}
    {change : FMap (Key U E C I) (Option (Row U C))}
    (hchange : ∀ k o, change.get k = some o → o = some .link ∧ ∃ i ∈ items, k = .link e i)
    (hheld : (t.pending.get .settings).isSome) (hwritten : ∃ r, t.pending.get (.entry e) = some (some r))
    (hfree : ∀ i ∈ items, ∀ e', Linked (t.visible s.rows) e' i → e' = e)
    (hown : ∀ i, Linked (t.visible s.rows) e i → i ∈ items) (hlength : items.length ≤ GROCERY_ITEMS_MAX)
    (hpc : pc.Follows ((t.visible s.rows).patch change) False) : Linking s ⟨pc, t.pending.merge change, t.locks⟩ := by
  obtain ⟨r, hr⟩ := hwritten
  -- a link seen after was seen before, or is one of those inserted
  have hlinked : ∀ e' i, Linked ((t.visible s.rows).patch change) e' i →
      Linked (t.visible s.rows) e' i ∨ e' = e ∧ i ∈ items := fun e' i hl => by
    rw [Linked, FMap.get_patch] at hl
    rcases hc : change.get (.link e' i) with _ | o
    · rw [hc] at hl
      exact Or.inl hl
    · obtain ⟨_, i', hi', hk⟩ := hchange _ _ hc
      obtain ⟨rfl, rfl⟩ := Key.link.inj hk
      exact Or.inr ⟨rfl, hi'⟩
  have hsame : ∀ e', ((t.visible s.rows).patch change).get (.entry e') =
      (t.visible s.rows).get (.entry e') := fun e' => by
    rw [FMap.get_patch]
    rcases hc : change.get (.entry e') with _ | o
    · rfl
    · obtain ⟨_, i, _, hk⟩ := hchange _ _ hc
      exact absurd hk (by simp)
  refine h.written ⟨fun i e₁ e₂ h₁ h₂ => ?_, fun e' => ?_, fun e' i hl => ?_⟩
    (fun e' i r' hr' => ?_) (fun hl => (hpc.locked hl).elim)
    (fun e' he => absurd he (hpc.wrote e')) hpc.plan
  · rcases hlinked e₁ i h₁ with h₁ | ⟨rfl, hi⟩
    · rcases hlinked e₂ i h₂ with h₂ | ⟨rfl, hi⟩
      · exact h.links.one i e₁ e₂ h₁ h₂
      · exact hfree i hi e₁ h₁
    · rcases hlinked e₂ i h₂ with h₂ | ⟨rfl, _⟩
      · exact (hfree i hi e₂ h₂).symm
      · rfl
  · by_cases he : e' = e
    · have hsub : linkedItems ((t.visible s.rows).patch change) e' ⊆ items.toFinset := fun i hi => by
        rw [List.mem_toFinset]
        rcases hlinked e' i (mem_linkedItems.mp hi) with hl | ⟨_, hi⟩
        · exact hown i (he ▸ hl)
        · exact hi
      exact (Finset.card_le_card hsub).trans ((List.toFinset_card_le items).trans hlength)
    · have hsub : linkedItems ((t.visible s.rows).patch change) e' ⊆ linkedItems (t.visible s.rows) e' :=
        fun i hi => by
          rcases hlinked e' i (mem_linkedItems.mp hi) with hl | ⟨he', _⟩
          · exact mem_linkedItems.mpr hl
          · exact absurd he' he
      exact (Finset.card_le_card hsub).trans (h.links.bound e')
  · rw [hsame]
    rcases hlinked e' i hl with hl | ⟨rfl, _⟩
    · exact h.links.entry e' i hl
    · rw [Tx.visible, FMap.get_patch, hr]
      rfl
  · obtain ⟨_, i', _, hk⟩ := hchange _ _ hr'
    obtain ⟨rfl, rfl⟩ := Key.link.inj hk
    exact ⟨hheld, by rw [hr]; rfl⟩

/-- A statement that writes nothing. -/
theorem Linking.go (h : Linking s t) {pc : Pc U E C I} (hlocked : pc.locked → t.at_.locked)
    (hwrote : ∀ e, pc.wrote e → t.at_.wrote e) (hplan : pc.plan (t.visible s.rows)) :
    Linking s { t with at_ := pc } where
  links := h.links
  insert := h.insert
  locked hl := h.locked (hlocked hl)
  wrote e he := h.wrote e (hwrote e he)
  plan := hplan

omit [DecidableEq U] [DecidableEq E] [DecidableEq C] [DecidableEq I] in
theorem Pc.Follows.mono {rows : Rows U E C I} {held held' : Prop} {pc : Pc U E C I}
    (h : pc.Follows rows held) (hheld : held → held') : pc.Follows rows held' :=
  ⟨h.plan, fun hl => hheld (h.locked hl), h.wrote⟩

theorem Linking.read (h : Linking s t) {pc : Pc U E C I}
    (hpc : pc.Follows (t.visible s.rows) t.at_.locked) : Linking s { t with at_ := pc } :=
  h.go hpc.locked (fun e he => absurd he (hpc.wrote e)) hpc.plan

omit [DecidableEq U] [DecidableEq E] [DecidableEq C] [DecidableEq I] in
theorem Pc.Follows.refused {rows : Rows U E C I} {held : Prop} (e : AppError) :
    (Pc.refused e : Pc U E C I).Follows rows held := ⟨trivial, False.elim, fun _ h => h⟩

omit [DecidableEq U] [DecidableEq E] [DecidableEq C] in
theorem Draft.checkItems_follows (rows : Rows U E C I) (d : Draft U E C I) :
    d.checkItems.Follows rows (∃ spentAt items, d.goal = .update spentAt items) := by
  rw [checkItems]
  split
  · split
    · exact .refused _
    · exact ⟨Nat.zero_le _, fun h => absurd rfl h, fun _ h => h⟩
    · rename_i hids
      exact ⟨length_of_groceryItemIds hids, False.elim, fun _ h => h⟩
  · rename_i hgoal
    exact ⟨trivial, fun _ => ⟨_, _, hgoal⟩, fun _ h => h⟩
  · rename_i hgoal
    split
    · exact .refused _
    · rename_i hids
      exact ⟨length_of_groceryItemIds hids, fun _ => ⟨_, _, hgoal⟩, fun _ h => h⟩

omit [DecidableEq U] [DecidableEq E] [DecidableEq C] in
theorem Draft.checkPayer_follows (rows : Rows U E C I) (d : Draft U E C I) :
    d.checkPayer.Follows rows (∃ spentAt items, d.goal = .update spentAt items) := by
  rw [checkPayer]
  split
  · exact ⟨trivial, fun h => h, fun _ h => h⟩
  · exact d.checkItems_follows rows

omit [DecidableEq U] [DecidableEq E] [DecidableEq C] in
theorem Draft.checkCategory_follows (rows : Rows U E C I) (d : Draft U E C I) :
    d.checkCategory.Follows rows (∃ spentAt items, d.goal = .update spentAt items) := by
  rw [checkCategory]
  split
  · exact ⟨trivial, fun h => h, fun _ h => h⟩
  · exact d.checkPayer_follows rows

omit [DecidableEq U] [DecidableEq E] [DecidableEq C] in
theorem NewEntry.draft_follows (rows : Rows U E C I) (actor : U) (id : E) (body : NewEntry U C I) :
    (body.draft roundCents actor id).Follows rows False := by
  rw [draft]
  split
  · exact .refused _
  · split
    · exact .refused _
    · rename_i cents _
      have hnext := Draft.checkCategory_follows rows ⟨actor, id, trim body.name, cents,
        body.category, body.paidBy, body.category, body.paidBy,
        .create body.spentAt (body.groceryItemId.toList ++ body.groceryItemIds)⟩
      exact ⟨hnext.plan, fun hl => by obtain ⟨_, _, hgoal⟩ := hnext.locked hl; simp at hgoal, hnext.wrote⟩

omit [DecidableEq U] [DecidableEq E] [DecidableEq C] in
theorem EntryPatch.draft_follows (rows : Rows U E C I) (actor : U) (e : E) (body : EntryPatch U C I)
    (old : Entry U C) : (body.draft roundCents actor e old).Follows rows True := by
  rw [draft]
  split
  · exact .refused _
  · split
    · exact .refused _
    · rename_i cents _
      have hnext := Draft.checkCategory_follows rows ⟨actor, e,
        (body.name.map trim).getD old.name, cents, body.category.getD old.category,
        body.paidBy.getD old.paidBy, body.category.getD none, body.paidBy.getD none,
        .update (body.spentAt.getD old.spentAt) body.groceryItemIds⟩
      exact ⟨hnext.plan, fun _ => trivial, hnext.wrote⟩

omit [DecidableEq U] [DecidableEq E] [DecidableEq C] [DecidableEq I] in
theorem alertAll_follows {rows : Rows U E C I} {held : Prop} (id : E) (month : ℤ)
    (alerts : List (Option C × Threshold)) :
    (alertAll id month alerts : Pc U E C I).Follows rows held := by
  cases alerts with
  | nil => exact ⟨trivial, False.elim, fun _ h => h⟩
  | cons alert rest => exact ⟨trivial, False.elim, fun _ h => h⟩

omit [DecidableEq U] [DecidableEq E] [DecidableEq C] [DecidableEq I] in
theorem Write.fire_follows {rows : Rows U E C I} {held : Prop} (w : Write U E C I)
    (watch : Option (Watch C)) : (w.fire watch).Follows rows held := by
  cases watch with
  | none => exact ⟨trivial, False.elim, fun _ h => h⟩
  | some watch => exact ⟨trivial, False.elim, fun _ h => h⟩

omit [DecidableEq U] [DecidableEq E] [DecidableEq C] [DecidableEq I] in
theorem After.resume_plan {rows : Rows U E C I} {k : After U E C I} (v : Settings)
    (h : (Pc.locking k).plan rows) : (k.resume v).plan rows := by
  cases k with
  | updating | pricing => trivial
  | _ => exact h

omit [DecidableEq U] [DecidableEq E] [DecidableEq C] [DecidableEq I] in
theorem After.resume_wrote {k : After U E C I} (v : Settings) (e : E) : ¬(k.resume v).wrote e := by
  cases k <;> exact fun h => h

theorem Linking.advance_settling (h : Linking s t) {k : After U E C I} (hat : t.at_ = .settling k) :
    Linking s ⟨.locking k, t.pending.merge (FMap.insertAt .settings (.settings Settings.default)
      (t.visible s.rows)), t.locks⟩ := by
  have hchange : ∀ key : Key U E C I, key ≠ .settings →
      (FMap.insertAt .settings (.settings Settings.default) (t.visible s.rows)).get key = none :=
    fun key hkey => by
      rw [FMap.insertAt]
      split
      · rfl
      · rw [FMap.get_one, if_neg hkey]
  refine h.quiet (fun e i => hchange _ (by simp)) (fun e => ?_) (fun hl => Or.inl (h.locked ?_))
    (fun e he => False.elim he) ?_
  · rw [hchange _ (by simp)]
    simp
  · rw [hat]
    cases k with
    | watching w => exact hl
    | _ => exact False.elim hl
  · have hplan := h.plan
    rw [hat] at hplan
    cases k with
    | updating | pricing => trivial
    | _ => exact hplan

theorem Linking.advance_locking (h : Linking s t) {k : After U E C I} (hat : t.at_ = .locking k) :
    Linking s ⟨match (t.visible s.rows).get .settings with
      | some (.settings v) => k.resume v
      | _ => .failed, t.pending.merge (FMap.touch (fun key _ => key = .settings) (t.visible s.rows)),
      t.locks⟩ := by
  have hplan := h.plan
  rw [hat] at hplan
  rcases hv : (t.visible s.rows).get .settings with _ | v
  · exact h.touch (fun _ _ _ => by simp) False.elim (fun _ he => he) trivial
  · cases v with
    | settings v =>
      refine h.touch (fun _ _ _ => by simp) (fun _ => Or.inr ?_) (After.resume_wrote v)
        (After.resume_plan v hplan)
      rw [FMap.get_touch.mpr ⟨_, hv, by simp, rfl⟩]
      rfl
    | _ => exact h.touch (fun _ _ _ => by simp) False.elim (fun _ he => he) trivial

theorem Linking.advance_rereading (h : Linking s t) {actor : U} {e : E} {body : EntryPatch U C I}
    {role : Groups.Role} (hat : t.at_ = .rereading actor e body role) :
    Linking s ⟨match (t.visible s.rows).get (.entry e) with
      | some (.entry old) =>
        if canModify role (old.createdBy = actor) then body.draft roundCents actor e old
        else .refused .Forbidden
      | _ => .refused .NotFound,
      t.pending.merge (FMap.touch (fun key _ => key = .entry e) (t.visible s.rows)), t.locks⟩ := by
  have hheld : (t.pending.get .settings).isSome := h.locked (by rw [hat]; trivial)
  have hgo : ∀ pc : Pc U E C I, pc.Follows (t.visible s.rows) True → Linking s ⟨pc,
      t.pending.merge (FMap.touch (fun key _ => key = .entry e) (t.visible s.rows)), t.locks⟩ :=
    fun pc hpc => h.touch (fun _ _ _ => by simp) (fun _ => Or.inl hheld) hpc.wrote hpc.plan
  apply hgo
  split
  · split
    · exact body.draft_follows _ actor e _
    · exact .refused _
  · exact .refused _

theorem Linking.advance_linking (cal : Calendar) (roundCents : ℚ → ℕ) (h : Linking s t) {p : Pricing U E I} {name : Text}
    (hat : t.at_ = .linking p name) {next : FMap (Key U E C I) (Row U C) → Pc U E C I}
    (hcode : code cal roundCents t.at_ = .write (touchLinked p.item) next) :
    Linking s ⟨next (t.visible s.rows), t.pending.merge (touchLinked p.item (t.visible s.rows)),
      t.locks⟩ := by
  have hheld : (t.pending.get .settings).isSome := h.locked (by rw [hat]; trivial)
  have hgo : ∀ pc : Pc U E C I, pc.Follows (t.visible s.rows) True → Linking s ⟨pc,
      t.pending.merge (touchLinked p.item (t.visible s.rows)), t.locks⟩ := fun pc hpc =>
    h.touch (fun _ _ _ => rfl) (fun _ => Or.inl hheld) hpc.wrote hpc.plan
  rw [hat] at hcode
  obtain ⟨_, rfl⟩ := Stmt.write.inj hcode
  apply hgo
  simp only
  split
  · rename_i hnone
    -- every linked expense is there, so none listed is none linked
    refine ⟨fun e he => ?_, fun _ => trivial, fun _ he => he⟩
    have hmem : e ∈ (linkedEntries (t.visible s.rows) p.item).filter fun e =>
        ((t.visible s.rows).get (.entry e)).isSome :=
      Finset.mem_filter.mpr ⟨mem_linkedEntries.mpr he, h.links.entry e p.item he⟩
    rw [← p.order.mem_list, List.head?_eq_none_iff.mp hnone] at hmem
    exact absurd hmem List.not_mem_nil
  · split
    · exact .refused _
    · exact ⟨trivial, fun _ => trivial, fun _ he => he⟩

theorem Linking.advance_writing (h : Linking s t) {w : Write U E C I} {watch : Option (Watch C)}
    (hat : t.at_ = .writing w watch) :
    Linking s ⟨match w.change with
      | .insert _ => if ((t.visible s.rows).get (.entry w.id)).isSome then .failed else w.link watch
      | _ => if ((t.visible s.rows).get (.entry w.id)).isSome then w.link watch else .failed,
      t.pending.merge (w.entry (t.visible s.rows)), t.locks⟩ := by
  have hready : w.Ready (t.visible s.rows) := by
    have hplan := h.plan
    rw [hat] at hplan
    exact hplan
  have hheld : w.links ≠ .keep → (t.pending.get .settings).isSome := fun hl => h.locked (by
    rw [hat]
    exact hl)
  have hchange : ∀ k o, (w.entry (t.visible s.rows)).get k = some o →
      k = .entry w.id ∧ ∃ r, o = some r := fun k o ho => by
    rw [Write.entry] at ho
    split at ho
    · rw [FMap.insertAt] at ho
      split at ho
      · exact absurd ho (by simp)
      · rw [FMap.get_one] at ho
        split at ho
        · exact ⟨‹_›, _, (Option.some.inj ho).symm⟩
        · exact absurd ho (by simp)
    · obtain ⟨v, _, hp, rfl⟩ := FMap.get_updateWhere.mp ho
      exact ⟨of_decide_eq_true hp, _, rfl⟩
  have hquiet : ∀ pc : Pc U E C I, (pc.locked → w.links ≠ .keep) →
      (∀ e, pc.wrote e → ∃ r, (w.entry (t.visible s.rows)).get (.entry e) = some (some r)) →
      pc.plan (t.visible s.rows) →
      Linking s ⟨pc, t.pending.merge (w.entry (t.visible s.rows)), t.locks⟩ :=
    fun pc hlocked hwrote hplan => by
      refine h.quiet (fun e i => ?_) (fun e ho => ?_) (fun hl => Or.inl (hheld (hlocked hl)))
        (fun e he => Or.inr (hwrote e he)) hplan
      · by_contra ho
        obtain ⟨o, ho⟩ := Option.ne_none_iff_exists'.mp ho
        exact absurd (hchange _ _ ho).1 (by simp)
      · obtain ⟨_, r, hr⟩ := hchange _ _ ho
        exact absurd hr (by simp)
  have hfailed : Linking s ⟨.failed, t.pending.merge (w.entry (t.visible s.rows)), t.locks⟩ :=
    hquiet _ False.elim (fun e he => False.elim he) trivial
  -- the expense is written: its links come next
  have hlink : (∃ r, (w.entry (t.visible s.rows)).get (.entry w.id) = some (some r)) →
      (∀ entry, w.change = .insert entry → ∀ i, ¬Linked (t.visible s.rows) w.id i) →
      Linking s ⟨w.link watch, t.pending.merge (w.entry (t.visible s.rows)), t.locks⟩ :=
    fun hwrite hnew => by
      rw [Write.Ready] at hready
      rw [Write.link]
      rcases hl : w.links with _ | items | item
      · have hfire : (w.fire watch).Follows (t.visible s.rows) False := w.fire_follows watch
        exact hquiet _ (fun h => (hfire.locked h).elim) (fun e he => absurd he (hfire.wrote e)) hfire.plan
      · rw [hl] at hready
        exact hquiet _ (fun _ => by rw [hl]; simp) (fun e he => by obtain rfl : e = w.id := he; exact hwrite)
          hready
      · rw [hl] at hready
        obtain ⟨⟨entry, hentry⟩, hfree⟩ := hready
        exact hquiet _ (fun _ => by rw [hl]; simp) (fun e he => by obtain rfl : e = w.id := he; exact hwrite)
          ⟨hfree, hnew entry hentry⟩
  rcases hc : w.change with entry | _ | _
  · simp only
    split
    · exact hfailed
    · rename_i hnone
      refine hlink ⟨.entry entry, ?_⟩ fun _ _ i hi => hnone (h.links.entry w.id i hi)
      rw [Write.entry, hc]
      simp only
      rw [FMap.insertAt, if_neg hnone, FMap.get_one, if_pos rfl]
  all_goals
    simp only
    split
    · rename_i hsome
      obtain ⟨v, hv⟩ := Option.isSome_iff_exists.mp hsome
      refine hlink ?_ fun entry he => absurd (hc.symm.trans he) (by simp)
      rw [Write.entry, hc]
      exact ⟨_, FMap.get_updateWhere.mpr ⟨v, hv, by simp, rfl⟩⟩
    · exact hfailed

theorem Linking.advance_dropping (h : Linking s t) {w : Write U E C I} {watch : Option (Watch C)}
    {items : List I} (hat : t.at_ = .dropping w watch items) :
    Linking s ⟨.adding w watch items, t.pending.merge (FMap.deleteWhere (fun k _ => match k with
        | .link e i => e = w.id ∧ i ∉ items
        | _ => false) (t.visible s.rows)), t.locks⟩ := by
  have hplan := h.plan
  have hwrote := h.wrote
  rw [hat] at hplan hwrote
  have hentry : ∀ e, (FMap.deleteWhere (fun k _ => match k with
      | .link e i => e = w.id ∧ i ∉ items
      | _ => false) (t.visible s.rows)).get (.entry e) = none := fun e => by
    by_contra ho
    obtain ⟨o, ho⟩ := Option.ne_none_iff_exists'.mp ho
    obtain ⟨_, v, _, hp⟩ := FMap.get_deleteWhere.mp ho
    exact absurd hp (by simp)
  refine h.unlink (fun k o ho => (FMap.get_deleteWhere.mp ho).1) (fun e i he => ?_)
    (fun _ => h.locked (by rw [hat]; trivial)) (fun e he => ⟨hwrote e he, hentry e⟩) ?_
  · rw [hentry] at he
    exact absurd he (by simp)
  · rw [FMap.patch_deleteWhere]
    have hsub : ∀ e i, Linked ((t.visible s.rows).filter fun k _ => !(match k with
        | .link e i => (e = w.id ∧ i ∉ items : Bool)
        | _ => false)) e i → Linked (t.visible s.rows) e i ∧ ¬(e = w.id ∧ i ∉ items) := fun e i hl => by
      obtain ⟨v, hv⟩ := Option.isSome_iff_exists.mp hl
      obtain ⟨hv, hp⟩ := FMap.get_filter_eq_some.mp hv
      exact ⟨by rw [Linked, hv]; rfl, fun hboth => by simp [hboth] at hp⟩
    refine ⟨hplan.1, fun i hi e he => hplan.2 i hi e (hsub e i he).1, fun i hi => ?_⟩
    by_contra hnot
    exact (hsub w.id i hi).2 ⟨rfl, hnot⟩

theorem Linking.advance_deleting (h : Linking s t) {e : E} :
    Linking s ⟨.done e, t.pending.merge (FMap.deleteWhere (fun k _ => match k with
        | .entry e' => e' = e
        | .link e' _ => e' = e
        | _ => false) (t.visible s.rows)), t.locks⟩ := by
  refine h.unlink (fun k o ho => (FMap.get_deleteWhere.mp ho).1) (fun e' i he hl => ?_) False.elim
    (fun e he => False.elim he) trivial
  obtain ⟨o, ho⟩ := Option.isSome_iff_exists.mp he
  obtain ⟨_, v, _, hp⟩ := FMap.get_deleteWhere.mp ho
  obtain ⟨v', hv'⟩ := Option.isSome_iff_exists.mp hl
  rw [FMap.get_deleteWhere.mpr ⟨rfl, v', hv', hp⟩]
  rfl

theorem Linking.advance_adding (h : Linking s t) {w : Write U E C I} {watch : Option (Watch C)}
    {items : List I} (hat : t.at_ = .adding w watch items) :
    Linking s ⟨if taken (t.visible s.rows) w.id items then .uniqueViolation else w.fire watch,
      t.pending.merge (if taken (t.visible s.rows) w.id items then FMap.empty
        else insertLinks w.id items (t.visible s.rows)), t.locks⟩ := by
  have hplan := h.plan
  have hwrote := h.wrote
  have hlocked := h.locked
  rw [hat] at hplan hwrote hlocked
  obtain ⟨hlength, hfree, hown⟩ := hplan
  have hnot : ¬taken (t.visible s.rows) w.id items = true := fun htaken => by
    obtain ⟨i, hi, e, he, hne⟩ := taken_iff.mp htaken
    exact hne (hfree i hi e he)
  rw [if_neg hnot, if_neg hnot]
  refine h.link (fun k o ho => ?_) (hlocked trivial) (hwrote w.id rfl) hfree hown hlength
    (w.fire_follows watch)
  obtain ⟨ho, i, hi, hk, _⟩ := get_insertLinks.mp ho
  exact ⟨ho, i, hi, hk⟩

theorem Linking.advance_attaching (h : Linking s t) {w : Write U E C I} {watch : Option (Watch C)}
    {item : I} (hat : t.at_ = .attaching w watch item) :
    Linking s ⟨if (linkedEntries (t.visible s.rows) item).Nonempty then .uniqueViolation
        else w.fire watch,
      t.pending.merge (if (linkedEntries (t.visible s.rows) item).Nonempty then FMap.empty
        else FMap.one (.link w.id item) (some .link)), t.locks⟩ := by
  have hplan := h.plan
  have hwrote := h.wrote
  have hlocked := h.locked
  rw [hat] at hplan hwrote hlocked
  obtain ⟨hfree, hown⟩ := hplan
  have hnot : ¬(linkedEntries (t.visible s.rows) item).Nonempty := fun ⟨e, he⟩ =>
    hfree e (mem_linkedEntries.mp he)
  rw [if_neg hnot, if_neg hnot]
  have hlength : [item].length ≤ GROCERY_ITEMS_MAX := by simp [GROCERY_ITEMS_MAX]
  refine h.link (fun k o ho => ?_) (hlocked trivial) (hwrote w.id rfl)
    (fun i hi e he => ?_) (fun i hi => absurd hi (hown i)) hlength (w.fire_follows watch)
  · rw [FMap.get_one] at ho
    split at ho
    · exact ⟨(Option.some.inj ho).symm, item, List.mem_singleton_self _, ‹_›⟩
    · exact absurd ho (by simp)
  · rw [List.mem_singleton.mp hi] at he
    exact absurd he (hfree e)

theorem Linking.advance_alerting (h : Linking s t) {id : E} {month : ℤ} {alert : Option C × Threshold}
    {rest : List (Option C × Threshold)} :
    Linking s ⟨alertAll id month rest, t.pending.merge
      (FMap.insertAt (.alert month alert.1 alert.2.percent) .alert (t.visible s.rows)), t.locks⟩ := by
  have hnext : (alertAll id month rest : Pc U E C I).Follows (t.visible s.rows) False :=
    alertAll_follows id month rest
  have hchange : ∀ k : Key U E C I, k ≠ .alert month alert.1 alert.2.percent →
      (FMap.insertAt (.alert month alert.1 alert.2.percent) .alert (t.visible s.rows)).get k = none :=
    fun k hk => by
      rw [FMap.insertAt]
      split
      · rfl
      · rw [FMap.get_one, if_neg hk]
  refine h.quiet (fun e i => hchange _ (by simp)) (fun e => ?_) (fun hl => (hnext.locked hl).elim)
    (fun e he => absurd he (hnext.wrote e)) hnext.plan
  rw [hchange _ (by simp)]
  simp

/-- STEP: a statement keeps the local invariant. -/
theorem Linking.advance (h : Linking s t) (hadvance : Tx.Advance (code cal roundCents) s t t') :
    Linking s t' := by
  have hplan := h.plan
  have hread : ∀ {next : FMap (Key U E C I) (Row U C) → Pc U E C I},
      code cal roundCents t.at_ = .query next →
      (next (t.visible s.rows)).Follows (t.visible s.rows) t.at_.locked → Linking s t' :=
    fun hc hnext => by
      rw [hadvance.of_query hc]
      exact h.read hnext
  rcases hat : t.at_ with r | d | d | k | k | ⟨d, spentAt, items⟩ | ⟨actor, e, body, role⟩ | p |
    ⟨p, name⟩ | ⟨p, name, linked⟩ | w | ⟨w, v⟩ | ⟨w, familyCap, category⟩ | ⟨w, watch⟩ |
    ⟨w, watch, items⟩ | ⟨w, watch, items⟩ | ⟨w, watch, items⟩ | ⟨w, watch, items⟩ |
    ⟨w, watch, item⟩ | ⟨w, watch⟩ | ⟨id, month, alert, rest⟩ | ⟨actor, e, role⟩ | e | e | _ | _ | id
  case opened =>
    cases r with
    | create actor id body =>
      refine hread (by rw [hat]; rfl) ?_
      split
      · exact .refused _
      · exact (body.draft_follows _ actor id).mono (fun h => h.elim)
    | update actor e body =>
      refine hread (by rw [hat]; rfl) ?_
      split
      · exact .refused _
      · exact ⟨trivial, False.elim, fun _ he => he⟩
    | price actor id item amount spentAt order =>
      refine hread (by rw [hat]; rfl) ?_
      split
      · exact .refused _
      · split
        · exact .refused _
        · exact ⟨trivial, False.elim, fun _ he => he⟩
    | delete actor e =>
      refine hread (by rw [hat]; rfl) ?_
      split
      · exact .refused _
      · exact ⟨trivial, False.elim, fun _ he => he⟩
  case requiringCategory =>
    refine hread (by rw [hat]; rfl) ?_
    split
    · rw [hat]
      exact d.checkPayer_follows _
    · exact .refused _
  case requiringPayer =>
    refine hread (by rw [hat]; rfl) ?_
    split
    · rw [hat]
      exact d.checkItems_follows _
    · exact .refused _
  case settling =>
    rw [hadvance.of_write (by rw [hat]; rfl)]
    exact h.advance_settling hat
  case locking =>
    rw [hadvance.of_write (by rw [hat]; rfl)]
    exact h.advance_locking hat
  case dating =>
    rw [hat] at hplan
    rw [hadvance.of_clock (by rw [hat]; rfl)]
    refine h.read ?_
    by_cases hitems : items = []
    · rw [if_pos hitems]
      exact ⟨trivial, fun hl => absurd rfl hl, fun _ he => he⟩
    · rw [if_neg hitems, hat]
      exact ⟨hplan, fun _ => hitems, fun _ he => he⟩
  case rereading =>
    rw [hadvance.of_write (by rw [hat]; rfl)]
    exact h.advance_rereading hat
  case naming =>
    refine hread (by rw [hat]; rfl) ?_
    split
    · rw [hat]
      exact ⟨trivial, fun _ => trivial, fun _ he => he⟩
    · exact .refused _
  case linking =>
    rw [hadvance.of_write (by rw [hat]; rfl)]
    exact h.advance_linking cal roundCents hat (by rw [hat]; rfl)
  case redating =>
    rw [hat] at hplan
    rw [hadvance.of_clock (by rw [hat]; rfl)]
    refine h.read ?_
    rw [hat]
    cases linked with
    | none => exact ⟨⟨⟨_, rfl⟩, hplan⟩, fun _ => trivial, fun _ he => he⟩
    | some linked => exact ⟨trivial, fun _ => trivial, fun _ he => he⟩
  case watching =>
    rw [hat] at hplan
    rw [hadvance.of_clock (by rw [hat]; rfl)]
    refine h.read ?_
    rw [hat]
    split
    · exact ⟨hplan, fun hl => hl, fun _ he => he⟩
    · exact ⟨hplan, fun hl => hl, fun _ he => he⟩
  case capping =>
    rw [hat] at hplan
    have hgo : ∀ (p : Prop) [Decidable p] (familyCap : Option ℕ) (category : Option (C × ℕ)),
        (if p then Pc.writing w none else .totalling w familyCap category).Follows
          (t.visible s.rows) (w.links ≠ .keep) := fun p _ familyCap category => by
      split
      · exact ⟨hplan, fun hl => hl, fun _ he => he⟩
      · exact ⟨hplan, fun hl => hl, fun _ he => he⟩
    refine hread (by rw [hat]; rfl) ?_
    rw [hat]
    exact hgo _ _ _
  case totalling =>
    rw [hat] at hplan
    refine hread (by rw [hat]; rfl) ?_
    rw [hat]
    exact ⟨hplan, fun hl => hl, fun _ he => he⟩
  case writing =>
    rw [hadvance.of_write (by rw [hat]; rfl)]
    exact h.advance_writing hat
  case finding =>
    rw [hat] at hplan
    rw [hadvance.of_query (by rw [hat]; rfl)]
    split
    · exact h.go (fun _ => by rw [hat]; trivial) (fun e he => by rw [hat]; exact he) hplan
    · exact h.read (.refused _)
  case taking =>
    rw [hat] at hplan
    rw [hadvance.of_query (by rw [hat]; rfl)]
    split
    · exact h.read (.refused _)
    · rename_i hfree
      refine h.go (fun _ => by rw [hat]; trivial) (fun e he => by rw [hat]; exact he)
        ⟨hplan, fun i hi e he => ?_⟩
      by_contra hne
      exact hfree (taken_iff.mpr ⟨i, hi, e, he, hne⟩)
  case dropping =>
    rw [hadvance.of_write (by rw [hat]; rfl)]
    exact h.advance_dropping hat
  case adding =>
    rw [hadvance.of_write (by rw [hat]; rfl)]
    exact h.advance_adding hat
  case attaching =>
    rw [hadvance.of_write (by rw [hat]; rfl)]
    exact h.advance_attaching hat
  case firing => exact hread (by rw [hat]; rfl) (alertAll_follows _ _ _)
  case alerting =>
    rw [hadvance.of_write (by rw [hat]; rfl)]
    exact h.advance_alerting
  case reading =>
    refine hread (by rw [hat]; rfl) ?_
    split
    · split
      · exact ⟨trivial, False.elim, fun _ he => he⟩
      · exact .refused _
    · exact .refused _
  case deleting =>
    rw [hadvance.of_write (by rw [hat]; rfl)]
    exact h.advance_deleting
  case refused => exact (hadvance.not_rollback (by rw [hat]; rfl)).elim
  case uniqueViolation => exact (hadvance.not_rollback (by rw [hat]; rfl)).elim
  case failed => exact (hadvance.not_rollback (by rw [hat]; rfl)).elim
  case done => exact (hadvance.not_commit (by rw [hat]; rfl)).elim

theorem Linking.begin (hG : LinksOk s.rows) (r : Request U E C I) :
    Linking s (Tx.begin (.opened r)) where
  links := by
    rw [Tx.visible_of_empty rfl]
    exact hG
  insert e i r h := absurd h (by simp [Tx.begin])
  locked h := False.elim h
  wrote e he := False.elim he
  plan := trivial

end

/-! ### Every interleaving -/

variable {cal : Calendar} {roundCents : ℚ → ℕ}

theorem outline : Outline (fun _ _ => True) (code cal roundCents) Starts
    (fun s : Shared (Key U E C I) (Row U C) E => LinksOk s.rows) Linking where
  init c := ⟨fun i e e' he => absurd he (by simp [Linked]), fun e => by simp [linkedItems],
    fun e i he => absurd he (by simp [Linked])⟩
  tick s c _ hG := hG
  tick_tx s c t _ _ h := ⟨h.links, h.insert, h.locked, h.wrote, h.plan⟩
  begin s l hG hstart := by
    obtain ⟨r⟩ := hstart
    exact Linking.begin hG r
  advance s t t' _ _ h hadvance := h.advance hadvance
  commit s t a _ h _ := h.links
  commit_tx s t a u _ h _ hu hapart := hu.beside h hapart.symm a

/-- CORRECT: in every interleaving an item is paid for once and an expense pays for a hundred items at
    most; no request is refused by the item's unique key, and only a request that answers with the
    expense it wrote changes a row. -/
theorem paid_once {τ : Type*} [DecidableEq τ] {rows : Rows U E C I} (hstart : LinksOk rows) (c : ℤ)
    {w : World (Key U E C I) (Row U C) Empty E (Pc U E C I) τ}
    (hrun : ReflTransGen (Step (code cal roundCents) Starts) (World.start rows c) w) :
    (∀ i e e', Linked w.rows e i → Linked w.rows e' i → e = e') ∧
    (∀ e, (linkedItems w.rows e).card ≤ 100) ∧
    (∀ j t, w.txs j = some t → t.at_ ≠ .uniqueViolation) ∧
    ∀ w', Step (code cal roundCents) Starts w w' → w'.rows ≠ w.rows →
      ∃ j t e, w.txs j = some t ∧ t.at_ = .done e ∧ w'.toShared = w.toShared.commit t e := by
  have hholds : Holds (fun s => LinksOk s.rows) Linking w := outline.steps (Holds.idle hstart) hrun
  refine ⟨hholds.shared.one, hholds.shared.bound, fun j t ht hat => ?_, fun w' hstep hrows => ?_⟩
  · have hplan := (hholds.tx j t ht).plan
    rw [hat] at hplan
    exact hplan
  · rcases hstep.rows_eq_or_commit with hsame | ⟨j, t, e, ht, hcode, hw'⟩
    · exact absurd hsame hrows
    · exact ⟨j, t, e, ht, eq_done hcode, hw'⟩

/-- A family of one, with bread to pay for. -/
def bread : Rows ℕ ℕ Empty ℕ :=
  (FMap.empty.set (.member 0) (some (.member .owner))).set (.item 0) (some (.item ['b']))

/-- The expense that pays for the bread. -/
theorem paid_once_bread : ∃ w : World (Key ℕ ℕ Empty ℕ) (Row ℕ Empty) Empty
    ℕ (Pc ℕ ℕ Empty ℕ) ℕ, Linked w.rows 1 0 ∧
    ∀ e, Linked w.rows e 0 → e = 1 := by
  obtain ⟨s, hs, hl⟩ : ∃ s, Tx.run (code ⟨fun t => t, fun d => d⟩ fun _ => 100) 12 ⟨bread, 0, []⟩
      (Tx.begin (.opened (.create 0 1 ⟨['b'], .finite 1, some 3, none, [0], none, none⟩))) = some s ∧
      Linked s.rows 1 0 := ⟨_, rfl, by decide⟩
  have hrun := Tx.start_run (0 : ℕ) (Starts.request _) hs
  have hfree : ∀ e i, ¬Linked bread e i := fun _ _ => Bool.false_ne_true
  have hok : LinksOk bread := by
    refine ⟨fun i e _ h => absurd h (hfree e i), fun e => ?_, fun e i h => absurd h (hfree e i)⟩
    rw [Finset.eq_empty_of_forall_notMem fun i hi => hfree e i (mem_linkedItems.mp hi)]
    exact Nat.zero_le _
  have hone := (paid_once hok 0 hrun).1
  exact ⟨_, hl, fun e he => hone 0 e 1 he hl⟩

end Home.Budget
