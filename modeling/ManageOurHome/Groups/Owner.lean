import ManageOurHome.Groups.Members

/-! @src apps/api/src/groups/mod.rs | layer:proof | family:groups

    Each family has one owner, in every interleaving whose writes do not land on a role gone stale. The
    index keeps a second owner out by itself. What it cannot do is keep the last one: a role read before
    a transfer commits is acted on after it.

        admin   role of C: standard ─────────────────────────▶ UPDATE C 'standard' ─▶ commit: no owner
        owner                        transfer to C ─▶ commit -/

namespace Home.Groups

open FiniteMap ReadCommitted Relation

variable {G U T : Type*} [DecidableEq G] [DecidableEq U] [DecidableEq T]

/-- `u` owns the family `g`. -/
def Owns (rows : FMap (Key G U T) (Row G)) (g : G) (u : U) : Prop :=
  rows.get (.member g u) = some (.member .owner)

/-- The families and their owners, at any point: one at most, and one at least where the family is
    there. -/
structure Owned (rows : FMap (Key G U T) (Row G)) : Prop where
  one : ∀ g u u', Owns rows g u → Owns rows g u' → u = u'
  owner : ∀ g, (rows.get (.group g)).isSome → ∃ u, Owns rows g u

section

variable {rows : FMap (Key G U T) (Row G)} {g : G} {u : U}

omit [DecidableEq G] [DecidableEq U] [DecidableEq T] in
theorem role_eq_owner : role rows g u = some .owner ↔ Owns rows g u := by
  rw [role, Owns]
  rcases rows.get (.member g u) with _ | _ | r | _ <;> simp

omit [DecidableEq T] in
theorem ownedByAnother_iff : ownedByAnother rows g u = true ↔ ∃ u', u' ≠ u ∧ Owns rows g u' := by
  rw [ownedByAnother, decide_eq_true_iff]
  constructor
  · intro h
    by_contra hnone
    refine absurd h (Nat.not_lt.mpr (le_of_eq (FMap.size_eq_zero.mpr fun k => ?_)))
    rcases hk : (rows.filter _).get k with _ | r
    · rfl
    · obtain ⟨hr, hp⟩ := FMap.get_filter_eq_some.mp hk
      rcases k with _ | ⟨g', u'⟩ | _
      · exact absurd hp (by simp)
      · rcases r with _ | r | _
        · exact absurd hp (by simp)
        · rcases r with _ | _ | _
          · obtain ⟨rfl, hne⟩ : g' = g ∧ u' ≠ u := by simpa using hp
            exact absurd ⟨u', hne, hr⟩ hnone
          · exact absurd hp (by simp)
          · exact absurd hp (by simp)
        · exact absurd hp (by simp)
      · exact absurd hp (by simp)
  · rintro ⟨u', hne, hu'⟩
    exact FMap.size_pos_of_get (k := .member g u')
      (FMap.get_filter_eq_some.mpr ⟨hu', by simp [hne]⟩)

end

/-! ### What a transaction may have written -/

/-- The family being handed over, without an owner for now. A transaction that will be rolled back
    leaves nothing. -/
def Pc.handing : Pc G U T → G → Prop
  | .demoted _ g _ _, g' | .promoting _ g _ _, g' => g' = g
  | .refused _ _, _ | .failed _, _ => True
  | _, _ => False

/-- The family being founded, without an owner yet. -/
def Pc.founds : Pc G U T → G → Prop
  | .indexing _ g, g' | .founding _ g, g' => g' = g
  | .refused _ _, _ | .failed _, _ => True
  | _, _ => False

/-- The family whose entry in the index is held. -/
def Pc.indexed : Pc G U T → G → Prop
  | .founding _ g, g' | .promoting _ g _ _, g' => g' = g
  | _, _ => False

/-- Whether members may have been written. -/
def Pc.wrote : Pc G U T → Prop
  | .demoted _ _ _ _ | .promoting _ _ _ _ | .leaving _ _ | .refused _ _ | .failed _ | .done _ => True
  | _ => False

/-- The local invariant. -/
structure Sound (s : Shared (Key G U T) (Row G) U) (t : Tx (Key G U T) (Row G) (Lock G) (Pc G U T)) :
    Prop where
  /-- An owner made holds the family's entry, and is the only one to be seen. -/
  index : ∀ g u, t.pending.get (.member g u) = some (some (.member .owner)) →
    .oneOwner g ∈ t.locks ∧ ∀ u', Owns (t.visible s.rows) g u' → u' = u
  /-- An owner unmade unmade itself. -/
  actor : ∀ g u o, Owns s.rows g u → t.pending.get (.member g u) = some o →
    o ≠ some (.member .owner) → u = t.at_.actor
  /-- Its family is deleted, or has another owner. -/
  heir : ∀ g u o, Owns s.rows g u → t.pending.get (.member g u) = some o →
    o ≠ some (.member .owner) → t.pending.get (.group g) = some none ∨
      (∃ u', t.pending.get (.member g u') = some (some (.member .owner))) ∨ t.at_.handing g
  /-- A family made has an owner. -/
  created : ∀ g r, t.pending.get (.group g) = some (some r) →
    (∃ u, t.pending.get (.member g u) = some (some (.member .owner))) ∨ t.at_.founds g
  holds : ∀ g, t.at_.indexed g → .oneOwner g ∈ t.locks
  untouched : ¬t.at_.wrote → ∀ g u, t.pending.get (.member g u) = none

/-- The condition: an `UPDATE` or a `DELETE` never lands on a member who has become the owner since
    its role was read, a family is deleted by its owner still, and an owner steps down for one who is
    still a member. -/
def RolesHold (s : Shared (Key G U T) (Row G) U) (t : Tx (Key G U T) (Row G) (Lock G) (Pc G U T)) :
    Prop :=
  match t.at_ with
  | .acting _ g target _ => role (t.visible s.rows) g target ≠ some .owner
  | .leaving actor g => role (t.visible s.rows) g actor ≠ some .owner
  | .promoting actor g newOwner _ =>
      role s.rows g actor = some .owner → (role (t.visible s.rows) g newOwner).isSome
  | .deleting actor g =>
      ((t.visible s.rows).get (.group g)).isSome → role (t.visible s.rows) g actor = some .owner
  | _ => True

section

variable {s : Shared (Key G U T) (Row G) U} {t t' u : Tx (Key G U T) (Row G) (Lock G) (Pc G U T)}

/-- A transaction that has written nothing. -/
theorem Sound.begin (s : Shared (Key G U T) (Row G) U) (r : Request G U T) :
    Sound s (Tx.begin (.opened r)) where
  index g u h := absurd h (by simp [Tx.begin])
  actor g u o _ h := absurd h (by simp [Tx.begin])
  heir g u o _ h := absurd h (by simp [Tx.begin])
  created g r h := absurd h (by simp [Tx.begin])
  holds g h := absurd h (by simp [Tx.begin, Pc.indexed])
  untouched _ g u := by simp [Tx.begin]

/-- A statement that writes no member and no family. -/
theorem Sound.keep (h : Sound s t)
    (hmember : ∀ g u, t'.pending.get (.member g u) = t.pending.get (.member g u))
    (hgroup : ∀ g, t'.pending.get (.group g) = t.pending.get (.group g))
    (hlocks : ∀ l ∈ t.locks, l ∈ t'.locks) (hactor : t'.at_.actor = t.at_.actor)
    (hhanding : ∀ g, t.at_.handing g → t'.at_.handing g)
    (hfounds : ∀ g, t.at_.founds g → t'.at_.founds g)
    (hholds : ∀ g, t'.at_.indexed g → .oneOwner g ∈ t'.locks)
    (hwrote : ¬t'.at_.wrote → ¬t.at_.wrote) : Sound s t' where
  index g u hu := by
    rw [hmember] at hu
    obtain ⟨hlock, hone⟩ := h.index g u hu
    refine ⟨hlocks _ hlock, fun u' hu' => hone u' ?_⟩
    rw [Owns, Tx.visible, FMap.get_patch, hmember] at hu'
    rw [Owns, Tx.visible, FMap.get_patch]
    exact hu'
  actor g u o hown hu ho := by
    rw [hmember] at hu
    rw [hactor]
    exact h.actor g u o hown hu ho
  heir g u o hown hu ho := by
    rw [hmember] at hu
    rw [hgroup]
    rcases h.heir g u o hown hu ho with hg | ⟨u', hu'⟩ | hh
    · exact Or.inl hg
    · exact Or.inr (Or.inl ⟨u', by rw [hmember]; exact hu'⟩)
    · exact Or.inr (Or.inr (hhanding g hh))
  created g r hg := by
    rw [hgroup] at hg
    rcases h.created g r hg with ⟨u', hu'⟩ | hh
    · exact Or.inl ⟨u', by rw [hmember]; exact hu'⟩
    · exact Or.inr (hfounds g hh)
  holds := hholds
  untouched hw g u := by rw [hmember]; exact h.untouched (hwrote hw) g u

/-- A statement that writes one member. -/
theorem Sound.setMember (h : Sound s t) {g : G} {m : U} {o : Option (Row G)}
    (hself : t'.pending.get (.member g m) = some o)
    (hmember : ∀ g' u, (g', u) ≠ (g, m) →
      t'.pending.get (.member g' u) = t.pending.get (.member g' u))
    (hgroup : ∀ g, t'.pending.get (.group g) = t.pending.get (.group g))
    (hlocks : ∀ l ∈ t.locks, l ∈ t'.locks) (hactor : t'.at_.actor = t.at_.actor)
    (hindex : o = some (.member .owner) → .oneOwner g ∈ t'.locks ∧
      ∀ u', Owns (t.visible s.rows) g u' → u' = m)
    (hunmade : o ≠ some (.member .owner) →
      t.pending.get (.member g m) ≠ some (some (.member .owner)) ∧
      (Owns s.rows g m → m = t.at_.actor ∧ (t.pending.get (.group g) = some none ∨
        (∃ u', t.pending.get (.member g u') = some (some (.member .owner))) ∨ t'.at_.handing g)))
    (hhanding : ∀ g', t.at_.handing g' → t'.at_.handing g' ∨ (g' = g ∧ o = some (.member .owner)))
    (hfounds : ∀ g', t.at_.founds g' → t'.at_.founds g' ∨ (g' = g ∧ o = some (.member .owner)))
    (hholds : ∀ g, t'.at_.indexed g → .oneOwner g ∈ t'.locks) (hwrote : t'.at_.wrote) :
    Sound s t' := by
  have hsplit : ∀ g' u o', t'.pending.get (.member g' u) = some o' →
      (g' = g ∧ u = m ∧ o' = o) ∨
        ((g', u) ≠ (g, m) ∧ t.pending.get (.member g' u) = some o') := fun g' u o' hu => by
    by_cases heq : (g', u) = (g, m)
    · obtain ⟨rfl, rfl⟩ := Prod.mk.inj heq
      exact Or.inl ⟨rfl, rfl, (Option.some.inj (hself.symm.trans hu)).symm⟩
    · exact Or.inr ⟨heq, (hmember g' u heq) ▸ hu⟩
  -- an owner made before is one still
  have hkeep : ∀ g' u, t.pending.get (.member g' u) = some (some (.member .owner)) →
      ∃ u', t'.pending.get (.member g' u') = some (some (.member .owner)) := fun g' u hu => by
    by_cases heq : (g', u) = (g, m)
    · obtain ⟨rfl, rfl⟩ := Prod.mk.inj heq
      by_cases ho : o = some (.member .owner)
      · exact ⟨u, ho ▸ hself⟩
      · exact absurd hu (hunmade ho).1
    · exact ⟨u, (hmember g' u heq).trans hu⟩
  have howns : ∀ g' u, Owns (t'.visible s.rows) g' u →
      (g' = g ∧ u = m ∧ o = some (.member .owner)) ∨ Owns (t.visible s.rows) g' u := fun g' u hu => by
    by_cases heq : (g', u) = (g, m)
    · obtain ⟨rfl, rfl⟩ := Prod.mk.inj heq
      rw [Owns, Tx.visible, FMap.get_patch, hself] at hu
      exact Or.inl ⟨rfl, rfl, hu⟩
    · rw [Owns, Tx.visible, FMap.get_patch, hmember g' u heq] at hu
      exact Or.inr (by rw [Owns, Tx.visible, FMap.get_patch]; exact hu)
  refine ⟨fun g' u hu => ?_, fun g' u o' hown hu ho' => ?_, fun g' u o' hown hu ho' => ?_,
    fun g' r hg => ?_, hholds, fun hw => absurd hwrote hw⟩
  · rcases hsplit g' u _ hu with ⟨rfl, rfl, ho⟩ | ⟨hne, hold⟩
    · obtain ⟨hlock, hone⟩ := hindex ho.symm
      refine ⟨hlock, fun u' hu' => ?_⟩
      rcases howns g' u' hu' with ⟨_, rfl, _⟩ | hu'
      · rfl
      · exact hone u' hu'
    · obtain ⟨hlock, hone⟩ := h.index g' u hold
      refine ⟨hlocks _ hlock, fun u' hu' => ?_⟩
      rcases howns g' u' hu' with ⟨rfl, rfl, ho⟩ | hu'
      · -- two owners made in one family: the second was refused
        have hseen : Owns (t.visible s.rows) g' u := by
          rw [Owns, Tx.visible, FMap.get_patch, hold]
          rfl
        exact ((hindex ho).2 u hseen).symm
      · exact hone u' hu'
  · rw [hactor]
    rcases hsplit g' u o' hu with ⟨rfl, rfl, rfl⟩ | ⟨hne, hold⟩
    · exact ((hunmade ho').2 hown).1
    · exact h.actor g' u o' hown hold ho'
  · rw [hgroup]
    have hfrom : t.pending.get (.group g') = some none ∨
        (∃ u', t.pending.get (.member g' u') = some (some (.member .owner))) ∨ t'.at_.handing g' ∨
          (g' = g ∧ o = some (.member .owner)) := by
      rcases hsplit g' u o' hu with ⟨rfl, rfl, rfl⟩ | ⟨hne, hold⟩
      · rcases ((hunmade ho').2 hown).2 with hg | hu' | hh
        · exact Or.inl hg
        · exact Or.inr (Or.inl hu')
        · exact Or.inr (Or.inr (Or.inl hh))
      · rcases h.heir g' u o' hown hold ho' with hg | hu' | hh
        · exact Or.inl hg
        · exact Or.inr (Or.inl hu')
        · exact Or.inr (Or.inr (hhanding g' hh))
    rcases hfrom with hg | ⟨u', hu'⟩ | hh | ⟨rfl, ho⟩
    · exact Or.inl hg
    · exact Or.inr (Or.inl (hkeep g' u' hu'))
    · exact Or.inr (Or.inr hh)
    · exact Or.inr (Or.inl ⟨m, ho ▸ hself⟩)
  · rw [hgroup] at hg
    rcases h.created g' r hg with ⟨u', hu'⟩ | hh
    · exact Or.inl (hkeep g' u' hu')
    · rcases hfounds g' hh with hh | ⟨rfl, ho⟩
      · exact Or.inr hh
      · exact Or.inl ⟨m, ho ▸ hself⟩

/-! ### Each statement -/

/-- The transaction goes on with nothing written. -/
theorem Sound.move (h : Sound s t) {pc : Pc G U T} {locks : List (Lock G)}
    (hlocks : ∀ l ∈ t.locks, l ∈ locks) (hactor : pc.actor = t.at_.actor)
    (hhanding : ∀ g, t.at_.handing g → pc.handing g) (hfounds : ∀ g, t.at_.founds g → pc.founds g)
    (hholds : ∀ g, pc.indexed g → .oneOwner g ∈ locks) (hwrote : ¬pc.wrote → ¬t.at_.wrote) :
    Sound s ⟨pc, t.pending, locks⟩ :=
  h.keep (fun _ _ => rfl) (fun _ => rfl) hlocks hactor hhanding hfounds hholds hwrote

/-- A statement that writes invitations only, or nothing. -/
theorem Sound.silent (h : Sound s t) {pc : Pc G U T} {change : FMap (Key G U T) (Option (Row G))}
    (hmember : ∀ g u, change.get (.member g u) = none) (hgroup : ∀ g, change.get (.group g) = none)
    (hactor : pc.actor = t.at_.actor) (hhanding : ∀ g, t.at_.handing g → pc.handing g)
    (hfounds : ∀ g, t.at_.founds g → pc.founds g) (hnext : ∀ g, ¬pc.indexed g)
    (hwrote : ¬pc.wrote → ¬t.at_.wrote) : Sound s ⟨pc, t.pending.merge change, t.locks⟩ :=
  h.keep (fun g u => by rw [FMap.get_merge, hmember]; rfl)
    (fun g => by rw [FMap.get_merge, hgroup]; rfl)
    (fun _ hl => hl) hactor hhanding hfounds (fun g hg => absurd hg (hnext g)) hwrote

/-- A statement that writes one member, and no more. -/
theorem Sound.member (h : Sound s t) {pc : Pc G U T} {g : G} {m : U} {o : Option (Row G)}
    (hactor : pc.actor = t.at_.actor)
    (hindex : o = some (.member .owner) → .oneOwner g ∈ t.locks ∧
      ∀ u', Owns (t.visible s.rows) g u' → u' = m)
    (hunmade : o ≠ some (.member .owner) →
      t.pending.get (.member g m) ≠ some (some (.member .owner)) ∧
      (Owns s.rows g m → m = t.at_.actor ∧ (t.pending.get (.group g) = some none ∨
        (∃ u', t.pending.get (.member g u') = some (some (.member .owner))) ∨ pc.handing g)))
    (hhanding : ∀ g', t.at_.handing g' → pc.handing g' ∨ (g' = g ∧ o = some (.member .owner)))
    (hfounds : ∀ g', t.at_.founds g' → pc.founds g' ∨ (g' = g ∧ o = some (.member .owner)))
    (hnext : ∀ g, ¬pc.indexed g) (hwrote : pc.wrote) :
    Sound s ⟨pc, t.pending.merge (FMap.one (.member g m) o), t.locks⟩ := by
  refine h.setMember (g := g) (m := m) (o := o) ?_ (fun g' u hne => ?_) (fun g' => ?_)
    (fun _ hl => hl) hactor hindex hunmade hhanding hfounds (fun g hg => absurd hg (hnext g)) hwrote
  · rw [FMap.get_merge, FMap.get_one, if_pos rfl]
    rfl
  · rw [FMap.get_merge, FMap.get_one, if_neg fun he => hne (by injection he with h₁ h₂; rw [h₁, h₂])]
    rfl
  · rw [FMap.get_merge, FMap.get_one, if_neg (by simp)]
    rfl

theorem get_deleteMember (rows : FMap (Key G U T) (Row G)) (g : G) (m : U) :
    deleteMember g m rows =
      if (rows.get (.member g m)).isSome then FMap.one (.member g m) none else FMap.empty := by
  refine FMap.ext fun k => ?_
  rcases hk : (deleteMember g m rows).get k with _ | o
  · rcases hr : rows.get (.member g m) with _ | r
    · rfl
    · have hne : k ≠ .member g m := fun he => by
        subst he
        have hgone : (deleteMember g m rows).get (.member g m) = some none :=
          FMap.get_deleteWhere.mpr ⟨rfl, r, hr, by simp⟩
        exact absurd (hk.symm.trans hgone) (by simp)
      rw [Option.isSome_some, if_pos rfl, FMap.get_one, if_neg hne]
  · obtain ⟨rfl, r, hr, he⟩ := FMap.get_deleteWhere.mp hk
    obtain rfl : k = .member g m := by simpa using he
    rw [if_pos (by rw [hr]; rfl), FMap.get_one, if_pos rfl]

theorem visible_member_of_untouched (h : Sound s t) (hwrote : ¬t.at_.wrote) (g : G) (m : U) :
    (t.visible s.rows).get (.member g m) = s.rows.get (.member g m) := by
  rw [Tx.visible, FMap.get_patch, h.untouched hwrote g m]
  rfl

/-- What a query leads to before anything is written. -/
theorem Sound.read (h : Sound s t) (hwrote : ¬t.at_.wrote)
    (hidle : ∀ g, ¬t.at_.handing g ∧ ¬t.at_.founds g)
    {pc : Pc G U T} (hactor : pc.actor = t.at_.actor) (hnext : ∀ g, ¬pc.indexed g) :
    Sound s { t with at_ := pc } :=
  h.move (fun _ hl => hl) hactor (fun g hg => absurd hg (hidle g).1)
    (fun g hg => absurd hg (hidle g).2) (fun g hg => absurd hg (hnext g)) fun _ => hwrote

section Writes

variable {pending : FMap (Key G U T) (Option (Row G))} {locks : List (Lock G)} {actor : U} {g : G}

/-- `INSERT INTO groups`. -/
theorem Sound.create (h : Sound s ⟨.creating actor g, pending, locks⟩) :
    let rows := s.rows.patch pending
    Sound s ⟨if (rows.get (.group g)).isSome then .failed actor else .indexing actor g,
      pending.merge (FMap.insertAt (.group g) .group rows), locks⟩ := by
  intro rows
  rw [FMap.insertAt]
  split
  · exact h.silent (fun _ _ => rfl) (fun _ => rfl) rfl (fun _ hh => hh.elim) (fun _ hh => hh.elim)
      (fun _ => id) fun hw => absurd trivial hw
  · have hmember : ∀ g' m, (pending.merge (FMap.one (.group g) (some .group))).get (.member g' m) =
        none := fun g' m => by
      rw [FMap.get_merge, FMap.get_one, if_neg (by simp)]
      exact h.untouched id g' m
    refine ⟨fun g' m hm => ?_, fun g' m o _ hm => ?_, fun g' m o _ hm => ?_, fun g' r hr => ?_,
      fun _ hg => hg.elim, fun _ => hmember⟩
    · exact absurd ((hmember g' m).symm.trans hm) (by simp)
    · exact absurd ((hmember g' m).symm.trans hm) (by simp)
    · exact absurd ((hmember g' m).symm.trans hm) (by simp)
    · by_cases he : g' = g
      · exact Or.inr he
      · have hold : pending.get (.group g') = some (some r) := by
          have hne : (Key.group g' : Key G U T) ≠ .group g := by simpa using he
          rw [FMap.get_merge, FMap.get_one, if_neg hne] at hr
          exact hr
        rcases h.created g' r hold with ⟨m, hm⟩ | hh
        · exact absurd ((h.untouched id g' m).symm.trans hm) (by simp)
        · exact hh.elim

/-- `INSERT INTO group_members … 'owner'`. -/
theorem Sound.found (h : Sound s ⟨.founding actor g, pending, locks⟩) :
    let rows := s.rows.patch pending
    Sound s ⟨if ownedByAnother rows g actor ∨ (rows.get (.member g actor)).isSome then .failed actor
        else .done actor,
      pending.merge (if ownedByAnother rows g actor then FMap.empty
        else FMap.insertAt (.member g actor) (.member .owner) rows), locks⟩ := by
  intro rows
  have hfail : Sound s ⟨.failed actor, pending.merge FMap.empty, locks⟩ :=
    h.silent (fun _ _ => rfl) (fun _ => rfl) rfl (fun _ _ => trivial) (fun _ _ => trivial)
      (fun _ => id) fun hw => absurd trivial hw
  by_cases hother : ownedByAnother rows g actor = true
  · rw [if_pos (Or.inl hother), if_pos hother]
    exact hfail
  rw [if_neg hother, FMap.insertAt]
  by_cases hthere : (rows.get (.member g actor)).isSome
  · rw [if_pos (Or.inr hthere), if_pos hthere]
    exact hfail
  rw [if_neg (not_or.mpr ⟨hother, hthere⟩), if_neg hthere]
  refine h.member rfl (fun _ => ⟨h.holds g rfl, fun u' hu' => ?_⟩) (fun hne => absurd rfl hne)
    (fun _ hh => hh.elim) (fun g' hg' => Or.inr ⟨hg', rfl⟩) (fun _ => id) trivial
  by_contra hne
  exact hother (ownedByAnother_iff.mpr ⟨u', hne, hu'⟩)

/-- `INSERT INTO group_members … 'standard'`. -/
theorem Sound.join (h : Sound s ⟨.joining actor g, pending, locks⟩) :
    let rows := s.rows.patch pending
    Sound s ⟨if (rows.get (.group g)).isSome then .done actor else .failed actor,
      pending.merge (if (rows.get (.group g)).isSome then
        FMap.insertAt (.member g actor) (.member .standard) rows else FMap.empty), locks⟩ := by
  intro rows
  have hquiet : ∀ pc : Pc G U T, pc.actor = actor → (∀ g, ¬pc.indexed g) → pc.wrote →
      Sound s ⟨pc, pending.merge FMap.empty, locks⟩ := fun pc hactor hnext hwrote =>
    h.silent (fun _ _ => rfl) (fun _ => rfl) hactor (fun _ hh => hh.elim) (fun _ hh => hh.elim)
      hnext fun hw => absurd hwrote hw
  split
  · rw [FMap.insertAt]
    split
    · exact hquiet _ rfl (fun _ => id) trivial
    · rename_i hthere
      refine h.member rfl (fun ho => absurd ho (by simp)) (fun _ => ⟨?_, fun hown => ?_⟩)
        (fun _ hh => hh.elim) (fun _ hh => hh.elim) (fun _ => id) trivial
      · rw [h.untouched id]
        simp
      · have hseen : rows.get (.member g actor) = s.rows.get (.member g actor) :=
          visible_member_of_untouched h id g actor
        rw [hseen, hown] at hthere
        exact absurd rfl hthere
  · exact hquiet _ rfl (fun _ => id) trivial

/-- An `UPDATE` or a `DELETE` of a member who is not the owner, and is not made one. -/
theorem Sound.act {target : U} {deed : Deed} {o : Option (Row G)}
    (h : Sound s ⟨.acting actor g target deed, pending, locks⟩)
    (hother : ¬Owns (s.rows.patch pending) g target) (ho : o ≠ some (.member .owner)) (there : Bool) :
    Sound s ⟨.done actor, pending.merge (if there then FMap.one (.member g target) o else FMap.empty),
      locks⟩ := by
  cases there with
  | true =>
    refine h.member rfl (fun he => absurd he ho) (fun _ => ⟨?_, fun hown => ?_⟩)
      (fun _ hh => hh.elim) (fun _ hh => hh.elim) (fun _ => id) trivial
    · rw [h.untouched id]
      simp
    · exact absurd ((visible_member_of_untouched h id g target).trans hown) hother
  | false =>
    exact h.silent (fun _ _ => rfl) (fun _ => rfl) rfl (fun _ hh => hh.elim) (fun _ hh => hh.elim)
      (fun _ => id) fun hw => absurd trivial hw

/-- `UPDATE … SET role = 'admin'` of the old owner. -/
theorem Sound.demote {newOwner : U} {leaves : Bool}
    (h : Sound s ⟨.demoting actor g newOwner leaves, pending, locks⟩) :
    let rows := s.rows.patch pending
    Sound s ⟨.demoted actor g newOwner leaves, pending.merge (updateRole g actor .admin rows), locks⟩ := by
  intro rows
  rw [updateRole, FMap.updateAt]
  split
  · refine h.member rfl (fun ho => absurd ho (by simp)) (fun _ => ⟨?_, fun hown => ?_⟩)
      (fun _ hh => hh.elim) (fun _ hh => hh.elim) (fun _ => id) trivial
    · rw [h.untouched id]
      simp
    · exact ⟨rfl, Or.inr (Or.inr rfl)⟩
  · exact h.silent (fun _ _ => rfl) (fun _ => rfl) rfl (fun _ hh => hh.elim) (fun _ hh => hh.elim)
      (fun _ => id) fun hw => absurd trivial hw

/-- With no owner stepped down, nothing is being handed over. -/
theorem Sound.settle {newOwner : U} {leaves : Bool}
    (h : Sound s ⟨.promoting actor g newOwner leaves, pending, locks⟩) (hnot : ¬Owns s.rows g actor) :
    Sound s ⟨.leaving actor g, pending, locks⟩ where
  index := h.index
  actor := h.actor
  heir g' m o hown hm ho := by
    rcases h.heir g' m o hown hm ho with hg | hu | hh
    · exact Or.inl hg
    · exact Or.inr (Or.inl hu)
    · obtain rfl : g' = g := hh
      obtain rfl : m = actor := h.actor g' m o hown hm ho
      exact absurd hown hnot
  created g' r hr := by
    rcases h.created g' r hr with hu | hh
    · exact Or.inl hu
    · exact hh.elim
  holds g' hg := hg.elim
  untouched hw := absurd trivial hw

/-- `UPDATE … SET role = 'owner'` of the new one, the index having its say. -/
theorem Sound.promote {newOwner : U} {leaves : Bool}
    (h : Sound s ⟨.promoting actor g newOwner leaves, pending, locks⟩)
    (hok : Owns s.rows g actor → (role (s.rows.patch pending) g newOwner).isSome) :
    let rows := s.rows.patch pending
    Sound s ⟨if ownedByAnother rows g newOwner ∧ (role rows g newOwner).isSome then .failed actor
        else if leaves then .leaving actor g else .done actor,
      pending.merge (if ownedByAnother rows g newOwner then FMap.empty
        else updateRole g newOwner .owner rows), locks⟩ := by
  intro rows
  have hfail : Sound s ⟨.failed actor, pending.merge FMap.empty, locks⟩ :=
    h.silent (fun _ _ => rfl) (fun _ => rfl) rfl (fun _ _ => trivial) (fun _ _ => trivial)
      (fun _ => id) fun hw => absurd trivial hw
  -- no row to promote: the owner has not stepped down
  have hstay : ¬(role rows g newOwner).isSome → ∀ pc : Pc G U T, pc.actor = actor →
      (∀ g, ¬pc.indexed g) → pc.wrote → Sound s ⟨pc, pending.merge FMap.empty, locks⟩ :=
    fun hrow pc hactor hnext hwrote =>
      (h.settle fun hown => hrow (hok hown)).silent (fun _ _ => rfl) (fun _ => rfl) hactor
        (fun _ hh => hh.elim) (fun _ hh => hh.elim) hnext fun hw => absurd hwrote hw
  have hgo : ∀ pc : Pc G U T, pc.actor = actor → (∀ g, ¬pc.indexed g) → pc.wrote →
      ¬ownedByAnother rows g newOwner →
      Sound s ⟨pc, pending.merge (FMap.one (.member g newOwner) (some (.member .owner))), locks⟩ :=
    fun pc hactor hnext hwrote hother => by
      refine h.member hactor (fun _ => ⟨h.holds g rfl, fun u' hu' => ?_⟩) (fun hne => absurd rfl hne)
        (fun g' hg' => Or.inr ⟨hg', rfl⟩) (fun _ hh => hh.elim) hnext hwrote
      by_contra hne
      exact hother (ownedByAnother_iff.mpr ⟨u', hne, hu'⟩)
  have hnext : ∀ change : FMap (Key G U T) (Option (Row G)),
      (∀ pc : Pc G U T, pc.actor = actor → (∀ g, ¬pc.indexed g) → pc.wrote →
        Sound s ⟨pc, pending.merge change, locks⟩) →
      Sound s ⟨if leaves then .leaving actor g else .done actor, pending.merge change, locks⟩ :=
    fun change hall => by
      cases leaves with
      | true => exact hall _ rfl (fun _ => id) trivial
      | false => exact hall _ rfl (fun _ => id) trivial
  by_cases hother : ownedByAnother rows g newOwner = true
  · rw [if_pos hother]
    by_cases hrow : (role rows g newOwner).isSome
    · rw [if_pos ⟨hother, hrow⟩]
      exact hfail
    · rw [if_neg fun hboth => hrow hboth.2]
      exact hnext _ (hstay hrow)
  · rw [if_neg fun hboth => hother hboth.1, if_neg hother, updateRole, FMap.updateAt]
    by_cases hthere : (rows.get (.member g newOwner)).isSome
    · rw [if_pos hthere]
      exact hnext _ fun pc hactor hpc hwrote => hgo pc hactor hpc hwrote hother
    · rw [if_neg hthere]
      refine hnext _ (hstay fun hrow => hthere ?_)
      rcases hr : rows.get (.member g newOwner) with _ | r
      · rw [role, hr] at hrow
        exact absurd hrow (by simp)
      · rfl

/-- `DELETE` of the member who leaves, and is not the owner by now. -/
theorem Sound.leave (h : Sound s ⟨.leaving actor g, pending, locks⟩)
    (hother : ¬Owns (s.rows.patch pending) g actor) :
    Sound s ⟨.done actor, pending.merge (deleteMember g actor (s.rows.patch pending)), locks⟩ := by
  rw [get_deleteMember]
  split
  · refine h.member rfl (fun ho => absurd ho (by simp)) (fun _ => ⟨fun howner => ?_, fun hown => ?_⟩)
      (fun _ hh => hh.elim) (fun _ hh => hh.elim) (fun _ => id) trivial
    · refine hother ?_
      rw [Owns, FMap.get_patch, howner]
      rfl
    · rcases hp : pending.get (.member g actor) with _ | o
      · refine absurd ?_ hother
        rw [Owns, FMap.get_patch, hp]
        exact hown
      · have ho : o ≠ some (.member .owner) := fun ho => hother (by
          rw [Owns, FMap.get_patch, hp, ho]
          rfl)
        refine ⟨rfl, ?_⟩
        rcases h.heir g actor o hown hp ho with hg | hu | hh
        · exact Or.inl hg
        · exact Or.inr (Or.inl hu)
        · exact hh.elim
  · exact h.silent (fun _ _ => rfl) (fun _ => rfl) rfl (fun _ hh => hh.elim) (fun _ hh => hh.elim)
      (fun _ => id) fun hw => absurd trivial hw

/-- `DELETE` of the family, by its owner. -/
theorem Sound.delete (hG : Owned s.rows) (h : Sound s ⟨.deleting actor g, pending, locks⟩)
    (hok : ((s.rows.patch pending).get (.group g)).isSome → Owns (s.rows.patch pending) g actor) :
    Sound s ⟨.done actor, pending.merge (deleteGroup g (s.rows.patch pending)), locks⟩ := by
  rw [deleteGroup]
  split
  · rename_i hthere
    have howner : Owns s.rows g actor := by
      rw [Owns, ← visible_member_of_untouched h id g actor]
      exact hok hthere
    set change := FMap.deleteWhere (ofGroup g) (s.rows.patch pending) with hchange
    have hdeleted : ∀ {k o}, change.get k = some o → o = none := fun hk =>
      (FMap.get_deleteWhere.mp hk).1
    -- what is written is what the `DELETE` wrote
    have hmember : ∀ g' m o, (pending.merge change).get (.member g' m) = some o → o = none ∧ g' = g :=
      fun g' m o hm => by
        rw [FMap.get_merge, h.untouched id, Option.or_none] at hm
        obtain ⟨ho, _, _, hp⟩ := FMap.get_deleteWhere.mp hm
        exact ⟨ho, by simpa [ofGroup] using hp⟩
    refine ⟨fun g' m hm => ?_, fun g' m o hown hm _ => ?_, fun g' m o _ hm _ => Or.inl ?_,
      fun g' r hr => ?_, fun _ hg => hg.elim, fun hw => absurd trivial hw⟩
    · exact absurd (hmember g' m _ hm).1 (by simp)
    · obtain ⟨_, rfl⟩ := hmember g' m o hm
      exact hG.one _ _ _ hown howner
    · obtain ⟨_, rfl⟩ := hmember g' m o hm
      obtain ⟨r, hr⟩ := Option.isSome_iff_exists.mp hthere
      have hgone : change.get (.group g') = some none :=
        FMap.get_deleteWhere.mpr ⟨rfl, r, hr, by simp [ofGroup]⟩
      rw [FMap.get_merge, hgone]
      rfl
    · rw [FMap.get_merge] at hr
      rcases hc : change.get (.group g') with _ | o
      · rw [hc] at hr
        rcases h.created g' r hr with ⟨m, hm⟩ | hh
        · exact absurd ((h.untouched id g' m).symm.trans hm) (by simp)
        · exact hh.elim
      · rw [hc, hdeleted hc] at hr
        exact absurd hr (by simp)
  · exact h.silent (fun _ _ => rfl) (fun _ => rfl) rfl (fun _ hh => hh.elim) (fun _ hh => hh.elim)
      (fun _ => id) fun hw => absurd trivial hw

end Writes

/-- The first statement reads. -/
theorem Sound.opened {r : Request G U T} {pending : FMap (Key G U T) (Option (Row G))}
    {locks : List (Lock G)} (h : Sound s ⟨.opened r, pending, locks⟩)
    (hadv : Tx.Advance code s ⟨.opened r, pending, locks⟩ t') : Sound s t' := by
  have hgo : ∀ pc : Pc G U T, pc.actor = r.actor → (∀ g, ¬pc.indexed g) →
      Sound s ⟨pc, pending, locks⟩ := fun pc hactor hnext => h.read id (fun _ => ⟨id, id⟩) hactor hnext
  have hjudge : ∀ rows actor g target deed, actor = r.actor →
      Sound s ⟨code.judge rows actor g target deed, pending, locks⟩ :=
    fun rows actor g target deed hactor => by
      rw [code.judge]
      split
      · exact hgo _ hactor fun _ => id
      · exact hgo _ hactor fun _ => id
  cases r with
  | create actor g =>
    rw [hadv.of_query rfl]
    dsimp only
    split
    · exact hgo _ rfl fun _ => id
    · exact hgo _ rfl fun _ => id
  | accept actor token =>
    rw [hadv.of_query rfl]
    dsimp only
    split
    · exact hgo _ rfl fun _ => id
    · exact hgo _ rfl fun _ => id
  | changeRole actor g target named =>
    rw [hadv.of_query rfl]
    dsimp only
    split
    · exact hjudge _ _ _ _ _ rfl
    · exact hjudge _ _ _ _ _ rfl
    · exact hgo _ rfl fun _ => id
  | remove actor g target =>
    rw [hadv.of_query rfl]
    exact hjudge _ _ _ _ _ rfl
  | leave actor g newOwner =>
    rw [hadv.of_query rfl]
    dsimp only
    split
    · exact hgo _ rfl fun _ => id
    · exact hgo _ rfl fun _ => id
  | transfer actor g newOwner =>
    rw [hadv.of_query rfl]
    dsimp only
    split
    · exact hgo _ rfl fun _ => id
    split
    · exact hgo _ rfl fun _ => id
    · exact hgo _ rfl fun _ => id
  | delete actor g =>
    rw [hadv.of_query rfl]
    dsimp only
    split
    · exact hgo _ rfl fun _ => id
    · exact hgo _ rfl fun _ => id

/-- STEP: every statement that runs where the roles hold keeps the local invariant. -/
theorem Sound.advance (hG : Owned s.rows) (h : Sound s t) (hok : RolesHold s t)
    (hadv : Tx.Advance code s t t') : Sound s t' := by
  obtain ⟨pc, pending, locks⟩ := t
  cases pc with
  | opened r => exact h.opened hadv
  | creating actor g =>
    rw [hadv.of_write rfl]
    exact h.create
  | indexing actor g =>
    rw [hadv.of_lock rfl]
    refine h.move (fun _ hl => List.mem_cons_of_mem _ hl) rfl (fun _ => id) (fun _ hg => hg)
      (fun g' hg' => ?_) fun _ => id
    obtain rfl : g' = g := hg'
    exact List.mem_cons_self
  | founding actor g =>
    rw [hadv.of_write rfl]
    exact h.found
  | found actor token g =>
    rw [hadv.of_write rfl]
    have hnone : ∀ k, (∀ token, k ≠ .invitation token) → ∀ rows : FMap (Key G U T) (Row G),
        (FMap.touch (fun k _ => decide (k = .invitation token)) rows).get k = none := fun k hk rows => by
      rcases ho : (FMap.touch (fun k _ => decide (k = .invitation token)) rows).get k with _ | o
      · exact ho
      · obtain ⟨_, _, hp, _⟩ := FMap.get_touch.mp ho
        exact absurd (of_decide_eq_true hp) (hk token)
    dsimp only
    split
    · exact h.silent (fun g u => hnone _ (by simp) _) (fun g => hnone _ (by simp) _) rfl
        (fun _ => id) (fun _ => id) (fun _ => id) id
    · exact h.silent (fun g u => hnone _ (by simp) _) (fun g => hnone _ (by simp) _) rfl
        (fun _ hh => hh.elim) (fun _ hh => hh.elim) (fun _ => id) fun hw => absurd trivial hw
  | held actor token g expiresAt =>
    rw [hadv.of_clock rfl]
    dsimp only
    split
    · exact h.read id (fun _ => ⟨id, id⟩) rfl fun _ => id
    · exact h.read id (fun _ => ⟨id, id⟩) rfl fun _ => id
  | consuming actor token g =>
    rw [hadv.of_write rfl]
    have hnone : ∀ k, (∀ token, k ≠ .invitation token) → ∀ rows : FMap (Key G U T) (Row G),
        (FMap.deleteWhere (fun k _ => decide (k = .invitation token)) rows).get k = none :=
      fun k hk rows => by
        rcases ho : (FMap.deleteWhere (fun k _ => decide (k = .invitation token)) rows).get k with _ | o
        · exact ho
        · obtain ⟨_, _, _, hp⟩ := FMap.get_deleteWhere.mp ho
          exact absurd (of_decide_eq_true hp) (hk token)
    exact h.silent (fun g u => hnone _ (by simp) _) (fun g => hnone _ (by simp) _) rfl
      (fun _ => id) (fun _ => id) (fun _ => id) id
  | joining actor g =>
    rw [hadv.of_write rfl]
    exact h.join
  | judging actor g target deed actorRole =>
    rw [hadv.of_query rfl]
    dsimp only
    split
    · exact h.read id (fun _ => ⟨id, id⟩) rfl fun _ => id
    · split
      · exact h.read id (fun _ => ⟨id, id⟩) rfl fun _ => id
      · exact h.read id (fun _ => ⟨id, id⟩) rfl fun _ => id
  | acting actor g target deed =>
    have hother : ¬Owns (s.rows.patch pending) g target := fun hown => hok (role_eq_owner.mpr hown)
    cases deed with
    | role grant =>
      rw [hadv.of_write rfl]
      exact h.act hother (by cases grant <;> simp [Grant.role]) _
    | removal =>
      rw [hadv.of_write rfl]
      dsimp only
      rw [get_deleteMember]
      exact h.act hother (by simp) _
  | counting actor g newOwner r =>
    rw [hadv.of_query rfl]
    dsimp only
    split
    · exact h.read id (fun _ => ⟨id, id⟩) rfl fun _ => id
    split
    · split
      · exact h.read id (fun _ => ⟨id, id⟩) rfl fun _ => id
      · split
        · exact h.read id (fun _ => ⟨id, id⟩) rfl fun _ => id
        · exact h.read id (fun _ => ⟨id, id⟩) rfl fun _ => id
    · exact h.read id (fun _ => ⟨id, id⟩) rfl fun _ => id
  | succeeding actor g newOwner leaves =>
    rw [hadv.of_query rfl]
    dsimp only
    split
    · exact h.read id (fun _ => ⟨id, id⟩) rfl fun _ => id
    · exact h.read id (fun _ => ⟨id, id⟩) rfl fun _ => id
  | demoting actor g newOwner leaves =>
    rw [hadv.of_write rfl]
    exact h.demote
  | demoted actor g newOwner leaves =>
    rw [hadv.of_lock rfl]
    refine h.move (fun _ hl => List.mem_cons_of_mem _ hl) rfl (fun _ hg => hg) (fun _ => id)
      (fun g' hg' => ?_) fun hw => absurd trivial hw
    obtain rfl : g' = g := hg'
    exact List.mem_cons_self
  | promoting actor g newOwner leaves =>
    rw [hadv.of_write rfl]
    exact h.promote fun hown => hok (role_eq_owner.mpr hown)
  | leaving actor g =>
    rw [hadv.of_write rfl]
    exact h.leave fun hown => hok (role_eq_owner.mpr hown)
  | deleting actor g =>
    rw [hadv.of_write rfl]
    exact h.delete hG fun hthere => role_eq_owner.mp (hok hthere)
  | refused actor e => exact (hadv.not_rollback rfl).elim
  | failed actor => exact (hadv.not_rollback rfl).elim
  | done actor => exact (hadv.not_commit rfl).elim

/-- What another transaction commits leaves the local invariant. -/
theorem Sound.beside (h : Sound s t) (hu : Sound s u) (hapart : t.Apart u) (a : U) :
    Sound (s.commit u a) t := by
  have hsame : ∀ {k o}, t.pending.get k = some o → (s.commit u a).rows.get k = s.rows.get k :=
    fun {k o} hk => by
      have hnone := hapart.symm.get_eq_none hk
      show (u.visible s.rows).get k = _
      rw [Tx.visible, FMap.get_patch, hnone]
      rfl
  refine ⟨fun g m hm => ?_, fun g m o hown hm ho => ?_, fun g m o hown hm ho => ?_, h.created, h.holds,
    h.untouched⟩
  · obtain ⟨hlock, hone⟩ := h.index g m hm
    refine ⟨hlock, fun m' hm' => ?_⟩
    rw [Owns, Tx.visible, FMap.get_patch] at hm'
    rcases ht : t.pending.get (.member g m') with _ | o
    · rw [ht] at hm'
      have hcommitted : (u.visible s.rows).get (.member g m') = some (.member .owner) := hm'
      rw [Tx.visible, FMap.get_patch] at hcommitted
      rcases hum : u.pending.get (.member g m') with _ | o
      · rw [hum] at hcommitted
        refine hone m' ?_
        rw [Owns, Tx.visible, FMap.get_patch, ht]
        exact hcommitted
      · -- an owner `u` made would hold the entry `t` holds
        rw [hum] at hcommitted
        have ho : o = some (.member .owner) := hcommitted
        rw [ho] at hum
        exact absurd (hu.index g m' hum).1 (hapart.locks _ hlock)
    · rw [ht] at hm'
      refine hone m' ?_
      rw [Owns, Tx.visible, FMap.get_patch, ht]
      exact hm'
  · rw [Owns, hsame hm] at hown
    exact h.actor g m o hown hm ho
  · rw [Owns, hsame hm] at hown
    exact h.heir g m o hown hm ho

/-- STEP: a commit leaves each family its owner. -/
theorem Owned.commit (hG : Owned s.rows) (h : Sound s t) (hdone : ∀ g, ¬t.at_.handing g ∧ ¬t.at_.founds g) :
    Owned (t.visible s.rows) := by
  refine ⟨fun g m m' hm hm' => ?_, fun g hg => ?_⟩
  · rcases hp : t.pending.get (.member g m) with _ | o
    · rcases hp' : t.pending.get (.member g m') with _ | o'
      · rw [Owns, Tx.visible, FMap.get_patch, hp] at hm
        rw [Owns, Tx.visible, FMap.get_patch, hp'] at hm'
        exact hG.one g m m' hm hm'
      · have ho' : o' = some (.member .owner) := by
          rw [Owns, Tx.visible, FMap.get_patch, hp'] at hm'
          exact hm'
        exact (h.index g m' (ho' ▸ hp')).2 m hm
    · have ho : o = some (.member .owner) := by
        rw [Owns, Tx.visible, FMap.get_patch, hp] at hm
        exact hm
      exact ((h.index g m (ho ▸ hp)).2 m' hm').symm
  · -- an owner made is the owner
    have hmade : ∀ m, t.pending.get (.member g m) = some (some (.member .owner)) →
        Owns (t.visible s.rows) g m := fun m hm => by
      rw [Owns, Tx.visible, FMap.get_patch, hm]
      rfl
    rw [Tx.visible, FMap.get_patch] at hg
    rcases hpg : t.pending.get (.group g) with _ | _ | r
    · rw [hpg] at hg
      obtain ⟨m, hm⟩ := hG.owner g hg
      rcases hpm : t.pending.get (.member g m) with _ | o
      · refine ⟨m, ?_⟩
        rw [Owns, Tx.visible, FMap.get_patch, hpm]
        exact hm
      · by_cases ho : o = some (.member .owner)
        · exact ⟨m, hmade m (ho ▸ hpm)⟩
        · rcases h.heir g m o hm hpm ho with hdel | ⟨m', hm'⟩ | hh
          · exact absurd (hpg.symm.trans hdel) (by simp)
          · exact ⟨m', hmade m' hm'⟩
          · exact absurd hh (hdone g).1
    · rw [hpg] at hg
      exact absurd hg (by simp)
    · rcases h.created g r hpg with ⟨m, hm⟩ | hh
      · exact ⟨m, hmade m hm⟩
      · exact absurd hh (hdone g).2

end

/-! ### Every interleaving -/

theorem eq_done {pc : Pc G U T} {a : U} (h : code pc = .commit a) : pc = .done a := by
  cases pc with
  | done actor => exact congrArg Pc.done (Stmt.commit.inj h)
  | opened r => cases r <;> exact absurd h (by simp [code])
  | acting actor g target deed => cases deed <;> exact absurd h (by simp [code])
  | _ => exact absurd h (by simp [code])

theorem outline : Outline (RolesHold (G := G) (U := U) (T := T)) code Starts (fun s => Owned s.rows)
    Sound where
  init c := ⟨fun g u u' hu => absurd hu (by simp [Owns]), fun g hg => absurd hg (by simp)⟩
  tick s c _ hG := hG
  tick_tx s c t _ _ h := ⟨h.index, h.actor, h.heir, h.created, h.holds, h.untouched⟩
  begin s l hG hstart := by
    obtain ⟨r⟩ := hstart
    exact Sound.begin s r
  advance s t t' hok hG h hadv := h.advance hG hok hadv
  commit s t a hG h hcode := by
    refine hG.commit h fun g => ?_
    rw [eq_done hcode]
    exact ⟨id, id⟩
  commit_tx s t a u hG h hcode hu hapart := hu.beside h hapart.symm a

/-- Families and members, each member's family there and each family with its one owner. -/
structure Founded (rows : FMap (Key G U T) (Row G)) : Prop where
  family : ∀ g u r, role rows g u = some r → (rows.get (.group g)).isSome
  owner : ∀ g, (rows.get (.group g)).isSome → ∃! u, role rows g u = some .owner

omit [DecidableEq G] [DecidableEq U] [DecidableEq T] in
theorem Founded.owned {rows : FMap (Key G U T) (Row G)} (h : Founded rows) : Owned rows where
  one g u u' hu hu' := by
    obtain ⟨o, _, hone⟩ := h.owner g (h.family g u _ (role_eq_owner.mpr hu))
    rw [hone u (role_eq_owner.mpr hu), hone u' (role_eq_owner.mpr hu')]
  owner g hg := by
    obtain ⟨o, ho, _⟩ := h.owner g hg
    exact ⟨o, role_eq_owner.mp ho⟩

/-- CORRECT: from families with one owner each, in every interleaving whose writes find the roles their
    requests read, each family has one owner, and one member at least; and what changes or removes an
    owner was asked by that owner. -/
theorem one_owner {τ : Type*} [DecidableEq τ] {rows : FMap (Key G U T) (Row G)} (hstart : Founded rows)
    (c : ℤ) {w : World (Key G U T) (Row G) (Lock G) U (Pc G U T) τ}
    (hrun : ReflTransGen (StepIf RolesHold code Starts) (World.start rows c) w) :
    (∀ g, (w.rows.get (.group g)).isSome → ∃! u, role w.rows g u = some .owner) ∧
    ∀ w', StepIf RolesHold code Starts w w' → ∀ g o, role w.rows g o = some .owner →
      role w'.rows g o ≠ some .owner → ∃ c, w'.log = c :: w.log ∧ c.answer = o := by
  have hholds : Holds (fun s => Owned s.rows) Sound w := outline.steps (Holds.idle hstart.owned) hrun
  refine ⟨fun g hg => ?_, fun w' hstep g o hown hlost => ?_⟩
  · obtain ⟨o, ho⟩ := hholds.shared.owner g hg
    exact ⟨o, role_eq_owner.mpr ho, fun u hu => hholds.shared.one g u o (role_eq_owner.mp hu) ho⟩
  · rcases hstep.rows_eq_or_commit with hrows | ⟨i, t, a, ht, hcode, hw'⟩
    · rw [hrows] at hlost
      exact absurd hown hlost
    · have hsound := hholds.tx i t ht
      have hshared := congrArg Shared.rows hw'
      have hlog := congrArg Shared.log hw'
      refine ⟨_, hlog, ?_⟩
      rw [hshared] at hlost
      have hown' : Owns w.rows g o := role_eq_owner.mp hown
      have hlost' : ¬Owns (t.visible w.rows) g o := fun hseen => hlost (role_eq_owner.mpr hseen)
      rcases hp : t.pending.get (.member g o) with _ | r
      · refine absurd ?_ hlost'
        rw [Owns, Tx.visible, FMap.get_patch, hp]
        exact hown'
      · have hr : r ≠ some (.member .owner) := fun hr => hlost' (by
          rw [Owns, Tx.visible, FMap.get_patch, hp, hr]
          rfl)
        have hactor := hsound.actor g o r hown' hp hr
        rw [eq_done hcode] at hactor
        exact hactor.symm

/-! ### An owner demoted by an admin -/

section Lost

/-- A family of three: an owner, an admin and a standard member. -/
def household : FMap (Key (Fin 1) (Fin 3) Empty) (Row (Fin 1)) :=
  (((FMap.empty.set (.group 0) (some .group)).set (.member 0 0) (some (.member .owner))).set
    (.member 0 1) (some (.member .admin))).set (.member 0 2) (some (.member .standard))

theorem household_founded : Founded household where
  family g u r _ := by
    obtain rfl : g = 0 := Subsingleton.elim _ _
    rfl
  owner g _ := by
    obtain rfl : g = 0 := Subsingleton.elim _ _
    exact ⟨0, rfl, by decide⟩

/-- The admin reads that member 2 is standard; the owner hands the family over to member 2; the admin
    makes member 2 standard. -/
theorem owner_lost : ¬∀ (rows : FMap (Key (Fin 1) (Fin 3) Empty) (Row (Fin 1))) (c : ℤ)
    (w : World (Key (Fin 1) (Fin 3) Empty) (Row (Fin 1)) (Lock (Fin 1)) (Fin 3)
      (Pc (Fin 1) (Fin 3) Empty) ℕ), Founded rows →
    ReflTransGen (Step code Starts) (World.start rows c) w →
    ∀ g, (w.rows.get (.group g)).isSome → ∃! u, role w.rows g u = some .owner := by
  intro hclaim
  set s : Shared (Key (Fin 1) (Fin 3) Empty) (Row (Fin 1)) (Fin 3) := ⟨household, 0, []⟩ with hs
  have hbegin : Step code Starts (World.only s (1 : ℕ) none) _ :=
    World.beside_begin (Starts.request (.changeRole 1 0 2 (some .standard)))
  have hread := ReflTransGen.single hbegin
    |>.tail (World.only_step trivial (.query _ rfl))
    |>.tail (World.only_step trivial (.query _ rfl))
  have hacting : ReflTransGen (Step code Starts) (World.only s (1 : ℕ) none)
      (World.only s 1 (some ⟨.acting 1 0 2 (.role .standard), FMap.empty, []⟩)) := hread
  set after : FMap (Key (Fin 1) (Fin 3) Empty) (Row (Fin 1)) → FMap _ _ := fun rows =>
    rows.patch (FMap.empty.merge (updateRole 0 2 .standard (rows.patch FMap.empty)))
  obtain ⟨s', hs', hthere, hrole⟩ : ∃ s',
      Tx.run code 7 s (Tx.begin (.opened (.transfer 0 0 2))) = some s' ∧
      ((after s'.rows).get (.group 0)).isSome ∧ ∀ u, role (after s'.rows) 0 u ≠ some .owner :=
    ⟨_, rfl, by decide, by decide⟩
  have hend := (hacting.trans (Tx.run_while (by decide : (2 : ℕ) ≠ 1) ⟨rfl, rfl⟩ (Starts.request _) 7 hs'))
    |>.tail (World.only_step trivial (.write _ _ rfl))
    |>.tail (World.beside_commit rfl)
  rw [hs, ← World.start_eq_only] at hend
  obtain ⟨u, hu, _⟩ := hclaim _ _ _ household_founded hend 0 hthere
  exact hrole u hu

/-- The owner leaves, and hands the family over to member 2. -/
theorem one_owner_handed : ∃ w : World (Key (Fin 1) (Fin 3) Empty) (Row (Fin 1)) (Lock (Fin 1)) (Fin 3)
    (Pc (Fin 1) (Fin 3) Empty) ℕ,
    role w.rows 0 2 = some .owner ∧ ∀ g, (w.rows.get (.group g)).isSome →
      ∃! u, role w.rows g u = some .owner := by
  have hbegin : StepIf RolesHold code Starts (World.only ⟨household, 0, []⟩ (0 : ℕ) none) _ :=
    World.beside_begin (Starts.request (.leave 0 0 (some 2)))
  have hread := ReflTransGen.single hbegin
    |>.tail (World.only_step trivial (.query _ rfl))
    |>.tail (World.only_step trivial (.query _ rfl))
    |>.tail (World.only_step trivial (.query _ rfl))
  have hhanded := hread
    |>.tail (World.only_step trivial (.write _ _ rfl))
    |>.tail (World.only_step trivial (.lock (.oneOwner 0) (.promoting 0 0 2 true) rfl))
    |>.tail (World.only_step (by exact fun _ => rfl) (.write _ _ rfl))
  have hleft := hhanded
    |>.tail (World.only_step (by change role _ 0 0 ≠ _; decide) (.write _ _ rfl))
    |>.tail (World.beside_commit rfl)
  rw [← World.start_eq_only] at hleft
  exact ⟨_, rfl, (one_owner household_founded 0 hleft).1⟩

end Lost

end Home.Groups
