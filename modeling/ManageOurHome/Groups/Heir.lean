import Mathlib.Data.List.Perm.Basic
import Mathlib.Data.Prod.Lex
import ManageOurHome.Groups.Succession

/-! @src apps/api/src/groups/succession.rs, apps/api/src/jobs/account_purge.rs | layer:proof | family:succession

    The heir: an eligible member no other ranks before, whatever the order in which the members are read. A family
    is handed on without a glance at the others. -/

namespace Home.Groups.Succession

open Account (PurgeClock)

variable {G U T : Type}

/-! ### The order of succession -/

theorem mem_rowsOf [DecidableEq G] {members : List (Membership G U)} {g : G} {m : Membership G U} :
    m ∈ rowsOf members g ↔ m ∈ members ∧ m.group = g := by rw [rowsOf, List.mem_filter, decide_eq_true_eq]

theorem userId_of_rank {m m' : RemainingMember U} (h : m.rank = m'.rank) : m.userId = m'.userId := by
  have h := congrArg (fun k => (ofLex (ofLex (ofLex k).2).2).2) h
  exact h

theorem mem_eligible {members : List (RemainingMember U)} {m : RemainingMember U} :
    m ∈ members.filter (fun m => !m.deactivated) ↔ m ∈ members ∧ m.deactivated = false := by
  rw [List.mem_filter, Bool.not_eq_true']

variable [LinearOrder U]

/-- An eligible member no other eligible member ranks before. -/
def Heir (members : List (RemainingMember U)) (u : U) : Prop :=
  ∃ m ∈ members, m.userId = u ∧ m.deactivated = false ∧ ∀ m' ∈ members, m'.deactivated = false → m.rank ≤ m'.rank

theorem successor_eq_some {members : List (RemainingMember U)} {u : U} :
    successor members = some u ↔ Heir members u := by
  rw [successor, Option.map_eq_some_iff]
  constructor
  · rintro ⟨m, hm, rfl⟩
    obtain ⟨hmem, hactive⟩ := mem_eligible.mp (List.argmin_mem hm)
    exact ⟨m, hmem, rfl, hactive, fun m' hmem' hactive' =>
      List.le_of_mem_argmin (mem_eligible.mpr ⟨hmem', hactive'⟩) hm⟩
  · rintro ⟨m, hmem, rfl, hactive, hleast⟩
    rcases hmin : (members.filter fun m => !m.deactivated).argmin RemainingMember.rank with _ | least
    · rw [List.argmin_eq_none] at hmin
      exact absurd (mem_eligible.mpr ⟨hmem, hactive⟩) (hmin ▸ List.not_mem_nil)
    · obtain ⟨hmem', hactive'⟩ := mem_eligible.mp (List.argmin_mem hmin)
      have hle := List.le_of_mem_argmin (mem_eligible.mpr ⟨hmem, hactive⟩) hmin
      exact ⟨least, hmin, userId_of_rank (le_antisymm hle (hleast least hmem' hactive'))⟩

theorem successor_eq_none {members : List (RemainingMember U)} :
    successor members = none ↔ ∀ m ∈ members, m.deactivated = true := by
  rw [successor, Option.map_eq_none_iff, List.argmin_eq_none, List.filter_eq_nil_iff]
  exact forall₂_congr fun m _ => by rw [Bool.not_eq_true', Bool.not_eq_false]

theorem Heir.perm {members listing : List (RemainingMember U)} (h : listing.Perm members) (u : U) :
    Heir listing u ↔ Heir members u := by
  have hmem := fun m : RemainingMember U => h.mem_iff (a := m)
  simp only [Heir, hmem]

/-- The order the members are read in does not matter. -/
theorem successor_perm {members listing : List (RemainingMember U)} (h : listing.Perm members) :
    successor listing = successor members :=
  Option.ext fun u => by rw [successor_eq_some, successor_eq_some, Heir.perm h]

/-! ### A family handed on -/

/-- Who a family is handed to. -/
def heirOf (accounts : U → PurgeClock) (rows : List (Membership G U)) : Option U :=
  heirIfOwnerless (rows.any fun r => r.role = .owner) (rows.map (remaining accounts))

/-- The memberships of a family once it is handed on. -/
def handed (accounts : U → PurgeClock) (rows : List (Membership G U)) : List (Membership G U) :=
  match heirOf accounts rows with
  | none => rows
  | some heir => rows.map fun m => if m.user = heir then { m with role := .owner } else m

theorem heirOf_eq_some {accounts : U → PurgeClock} {rows : List (Membership G U)} {u : U} :
    heirOf accounts rows = some u ↔ (∀ r ∈ rows, r.role ≠ .owner) ∧ Heir (rows.map (remaining accounts)) u := by
  rw [heirOf, heirIfOwnerless]
  split
  · rename_i howner
    obtain ⟨r, hr, hrole⟩ := List.any_eq_true.mp howner
    exact iff_of_false (by simp) fun h => h.1 r hr (of_decide_eq_true hrole)
  · rename_i howner
    rw [successor_eq_some, iff_and_self]
    exact fun _ r hr hrole => howner (List.any_eq_true.mpr ⟨r, hr, decide_eq_true hrole⟩)

/-- No one is eligible, or an owner is found: nobody inherits. -/
theorem heirOf_eq_none {accounts : U → PurgeClock} {rows : List (Membership G U)} :
    heirOf accounts rows = none ↔
      (∃ r ∈ rows, r.role = .owner) ∨ ∀ r ∈ rows, (accounts r.user).deactivatedAt.isSome := by
  rw [heirOf, heirIfOwnerless]
  split
  · rename_i howner
    obtain ⟨r, hr, hrole⟩ := List.any_eq_true.mp howner
    exact iff_of_true rfl (.inl ⟨r, hr, of_decide_eq_true hrole⟩)
  · rename_i howner
    rw [successor_eq_none, List.forall_mem_map]
    refine ⟨.inr, fun h => h.resolve_left ?_⟩
    rintro ⟨r, hr, hrole⟩
    exact howner (List.any_eq_true.mpr ⟨r, hr, decide_eq_true hrole⟩)

/-- An heir is one of the members. -/
theorem exists_of_heirOf {accounts : U → PurgeClock} {rows : List (Membership G U)} {u : U}
    (h : heirOf accounts rows = some u) : ∃ r ∈ rows, r.user = u := by
  obtain ⟨m, hm, rfl, -⟩ := (heirOf_eq_some.mp h).2
  obtain ⟨r, hr, rfl⟩ := List.mem_map.mp hm
  exact ⟨r, hr, rfl⟩

/-- Handed on once, a family is handed on for good. -/
theorem handed_handed (accounts : U → PurgeClock) (rows : List (Membership G U)) :
    handed accounts (handed accounts rows) = handed accounts rows := by
  rcases hheir : heirOf accounts rows with _ | heir
  · rw [handed.eq_def accounts rows, hheir]
    dsimp only
    rw [handed, hheir]
  · rw [handed.eq_def accounts rows, hheir]
    dsimp only
    obtain ⟨r, hr, hruser⟩ := exists_of_heirOf hheir
    rw [handed, heirOf_eq_none.mpr (.inl ⟨_, List.mem_map_of_mem hr, by rw [if_pos hruser]⟩)]

/-- Handed on, a family has the members it had. -/
theorem exists_handed {accounts : U → PurgeClock} {rows : List (Membership G U)} {u : U} :
    (∃ r ∈ handed accounts rows, r.user = u) ↔ ∃ r ∈ rows, r.user = u := by
  rw [handed]
  split
  · rfl
  · simp only [List.mem_map, exists_exists_and_eq_and]
    refine exists_congr fun r => and_congr_right fun _ => ?_
    split <;> rfl

/-- An owner stays the owner. -/
theorem mem_handed {accounts : U → PurgeClock} {rows : List (Membership G U)} {r : Membership G U} (hr : r ∈ rows)
    (howner : r.role = .owner) : r ∈ handed accounts rows := by
  rw [handed, heirOf_eq_none.mpr (.inl ⟨r, hr, howner⟩)]
  exact hr

/-- A family with an eligible member is handed on, if it has to be. -/
theorem exists_owner_handed {accounts : U → PurgeClock} {rows : List (Membership G U)} {r : Membership G U} (hr : r ∈ rows)
    (hactive : (accounts r.user).deactivatedAt = none) : ∃ r ∈ handed accounts rows, r.role = .owner := by
  rw [handed]
  split
  · rename_i hnone
    refine (heirOf_eq_none.mp hnone).resolve_right fun hall => ?_
    exact absurd (hall r hr) (by rw [hactive]; simp)
  · rename_i heir hheir
    obtain ⟨r, hr, huser⟩ := exists_of_heirOf hheir
    exact ⟨_, List.mem_map_of_mem hr, by rw [if_pos huser]⟩

/-- A family without an owner goes to its heir, and to no one else. -/
theorem owner_handed {accounts : U → PurgeClock} {rows : List (Membership G U)} (hfree : ∀ r ∈ rows, r.role ≠ .owner)
    (u : U) : (∃ r ∈ handed accounts rows, r.user = u ∧ r.role = .owner) ↔ Heir (rows.map (remaining accounts)) u := by
  have hheir : heirOf accounts rows = some u ↔ _ := heirOf_eq_some
  rw [and_iff_right hfree] at hheir
  rw [← hheir, handed]
  split
  · rename_i hnone
    rw [hnone]
    exact iff_of_false (fun ⟨r, hr, _, howner⟩ => hfree r hr howner) (by simp)
  · rename_i heir hsome
    rw [hsome, Option.some.injEq]
    constructor
    · rintro ⟨_, hr, huser, howner⟩
      obtain ⟨r, hold, rfl⟩ := List.mem_map.mp hr
      split at howner
      · rename_i hsame
        rw [if_pos hsame] at huser
        exact hsame.symm.trans huser
      · exact absurd howner (hfree r hold)
    · rintro rfl
      obtain ⟨r, hr, huser⟩ := exists_of_heirOf hsome
      exact ⟨_, List.mem_map_of_mem hr, by rw [if_pos huser]; exact huser, by rw [if_pos huser]⟩

variable [DecidableEq G]

theorem assignHeir_eq (s : House G U T) (g : G) : assignHeir s g = match heirOf s.accounts (rowsOf s.members g) with
    | none => s
    | some heir => s.updateRole g heir .owner := rfl

@[simp] theorem updateRole_accounts (s : House G U T) (g : G) (u : U) (role : Role) :
    (s.updateRole g u role).accounts = s.accounts := rfl

theorem assignHeir_accounts (s : House G U T) (g : G) : (assignHeir s g).accounts = s.accounts := by
  rw [assignHeir_eq]
  split <;> rfl

theorem rowsOf_updateRole (s : House G U T) (g g' : G) (u : U) (role : Role) :
    rowsOf (s.updateRole g u role).members g' =
      if g' = g then (rowsOf s.members g).map fun m => if m.user = u then { m with role := role } else m
      else rowsOf s.members g' := by
  simp only [rowsOf, House.updateRole, List.filter_map]
  have hgroup : ((fun m : Membership G U => decide (m.group = g')) ∘ fun m =>
      if m.group = g ∧ m.user = u then { m with role := role } else m) = fun m => decide (m.group = g') := by
    funext m
    rw [Function.comp_apply]
    split <;> rfl
  rw [hgroup]
  split
  · rename_i heq
    subst heq
    refine List.map_congr_left fun m hm => ?_
    rw [show m.group = g' from of_decide_eq_true (List.mem_filter.mp hm).2]
    simp
  · rename_i hne
    refine (List.map_congr_left fun m hm => ?_).trans (List.map_id _)
    rw [if_neg fun h => hne ((of_decide_eq_true (List.mem_filter.mp hm).2).symm.trans h.1)]
    rfl

/-- Handing a family on leaves the others as they are. -/
theorem rowsOf_assignHeir (s : House G U T) (g g' : G) : rowsOf (assignHeir s g).members g' =
    if g' = g then handed s.accounts (rowsOf s.members g) else rowsOf s.members g' := by
  rw [assignHeir_eq, handed]
  rcases heirOf s.accounts (rowsOf s.members g) with _ | heir
  · dsimp only
    split
    · rename_i heq
      rw [heq]
    · rfl
  · exact rowsOf_updateRole s g g' heir .owner

theorem foldl_assignHeir_accounts (gs : List G) (s : House G U T) :
    (gs.foldl assignHeir s).accounts = s.accounts := by
  induction gs generalizing s with
  | nil => rfl
  | cons g gs ih => exact (ih _).trans (assignHeir_accounts s g)

/-- Families handed on one after the other: each on its own. -/
theorem rowsOf_foldl_assignHeir (gs : List G) (s : House G U T) (g : G) :
    rowsOf (gs.foldl assignHeir s).members g =
      if g ∈ gs then handed s.accounts (rowsOf s.members g) else rowsOf s.members g := by
  induction gs generalizing s with
  | nil => rw [if_neg List.not_mem_nil]; rfl
  | cons g' gs ih =>
    rw [List.foldl_cons, ih, assignHeir_accounts, rowsOf_assignHeir]
    by_cases heq : g = g'
    · subst heq
      rw [if_pos rfl, handed_handed, ite_self, if_pos List.mem_cons_self]
    · rw [if_neg heq]
      simp only [List.mem_cons, heq, false_or]

end Home.Groups.Succession
