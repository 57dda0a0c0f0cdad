import Mathlib.Logic.Relation
import ManageOurHome.Account.Deactivation
import ManageOurHome.Groups.Heir

/-! @src apps/api/src/groups/mod.rs, apps/api/src/groups/succession.rs, apps/api/src/jobs/account_purge.rs |
    layer:proof | family:succession

    A family with a member in use has an owner, over whole histories, as long as nobody is invited into a family
    that has none. An invitation outlives whoever made it being deactivated: accepted after the owner is purged, it
    brings in a member of whom nobody makes an owner.

        A owner, deactivated ─ B invites C ─ B deactivated ─ A purged: no heir ─ C accepts: no owner -/

namespace Home.Groups.Succession

open Account (PurgeClock Chrono)
open Relation

variable {G U T : Type}

/-! ### Histories -/

/-- What may happen. -/
inductive Event (G U T : Type) where
  | tick (clock : ℤ)
  | reorder (members : List (Membership G U))
  /-- What is asked and told about an account, its deactivation apart. -/
  | account (u : U) (row : PurgeClock)
  | request (r : Request G U T)
  | invite (actor : U) (g : G) (token : T)
  | deactivate (u : U)
  | reactivate (u : U)
  | designate (g : G) (u : U)
  | purge (u : U)

/-- The account is neither deactivated nor deleted. -/
def House.Active (s : House G U T) (u : U) : Prop :=
  (s.accounts u).deactivatedAt = none ∧ (s.accounts u).deletedAt = none

/-- A new family has an id of its own. -/
def Fresh (s : House G U T) : Request G U T → Prop
  | .create _ g => g ∉ s.groups
  | _ => True

section

variable [DecidableEq G] [LinearOrder U] [DecidableEq T] (chrono : Chrono)

inductive Step : Event G U T → House G U T → House G U T → Prop where
  | tick (s : House G U T) (clock : ℤ) (h : s.clock ≤ clock) : Step (.tick clock) s { s with clock := clock }
  | reorder (s : House G U T) (members : List (Membership G U)) (h : members.Perm s.members) :
      Step (.reorder members) s { s with members := members }
  | account (s : House G U T) (u : U) (row : PurgeClock) (told told' : List Account.Told)
      (h : Account.Onward chrono ⟨s.clock, s.accounts u, told⟩ ⟨s.clock, row, told'⟩) :
      Step (.account u row) s (s.updateAccount u row)
  | request (s s' : House G U T) (r : Request G U T) (hactor : s.Active r.actor) (hfresh : Fresh s r)
      (h : handle s r = .ok s') : Step (.request r) s s'
  | invite (s s' : House G U T) (actor : U) (g : G) (token : T) (hactor : s.Active actor)
      (h : createInvitation s actor g token = .ok s') : Step (.invite actor g token) s s'
  | deactivate (s s' : House G U T) (u : U) (h : deactivateUser s u = .ok s') : Step (.deactivate u) s s'
  | reactivate (s s' : House G U T) (u : U) (h : reactivateUser s u = .ok s') : Step (.reactivate u) s s'
  | designate (s s' : House G U T) (g : G) (u : U) (h : designateOwner s g u = .ok s') :
      Step (.designate g u) s s'
  | purge (s s' : House G U T) (u : U) (h : purgeAccount chrono s u = some s') : Step (.purge u) s s'

end

/-! ### What is kept -/

def House.Sits (s : House G U T) (g : G) (u : U) : Prop := ∃ m ∈ s.members, m.group = g ∧ m.user = u

def House.Owns (s : House G U T) (g : G) (u : U) : Prop :=
  ∃ m ∈ s.members, m.group = g ∧ m.user = u ∧ m.role = .owner

/-- The keys of the tables: one row a member, one owner a family, an invitation for a family. -/
structure Tables (s : House G U T) : Prop where
  keyed : ∀ m ∈ s.members, ∀ m' ∈ s.members, m.group = m'.group → m.user = m'.user → m = m'
  oneOwner : ∀ g u v, s.Owns g u → s.Owns g v → u = v
  placed : ∀ g u, s.Sits g u → g ∈ s.groups
  invited : ∀ i ∈ s.invitations, i.group ∈ s.groups

/-- A family with a member in use has an owner. -/
def Covered (s : House G U T) : Prop :=
  ∀ g ∈ s.groups, (∃ u, s.Sits g u ∧ s.Active u) → ∃ u, s.Owns g u

/-- Nobody is invited into a family without an owner. -/
def Housed [DecidableEq T] (s : House G U T) : Event G U T → Prop
  | .request (.accept _ token) =>
    ∀ i, s.invitations.find? (fun i => i.token = token) = some i → ∃ u, s.Owns i.group u
  | _ => True

theorem House.Owns.sits {s : House G U T} {g : G} {u : U} (h : s.Owns g u) : s.Sits g u := by
  obtain ⟨m, hm, hgroup, huser, -⟩ := h
  exact ⟨m, hm, hgroup, huser⟩

/-- A member whose row does not make it the owner is not. -/
theorem Tables.not_owns {s : House G U T} (h : Tables s) {m : Membership G U} (hm : m ∈ s.members)
    (hrole : m.role ≠ .owner) : ¬s.Owns m.group m.user := by
  rintro ⟨m', hm', hgroup, huser, howner⟩
  exact hrole (h.keyed m' hm' m hm hgroup huser ▸ howner)

/-- What changes neither the memberships nor the families. -/
theorem Tables.same {s s' : House G U T} (h : Tables s) (hgroups : s'.groups = s.groups)
    (hmembers : ∀ m, m ∈ s'.members ↔ m ∈ s.members) (hinvited : ∀ i ∈ s'.invitations, i.group ∈ s'.groups) :
    Tables s' where
  keyed m hm m' hm' := h.keyed m ((hmembers m).mp hm) m' ((hmembers m').mp hm')
  oneOwner g u v hu hv := by
    simp only [House.Owns, hmembers] at hu hv
    exact h.oneOwner g u v hu hv
  placed g u hu := by
    simp only [House.Sits, hmembers] at hu
    rw [hgroups]
    exact h.placed g u hu
  invited := hinvited

/-- Rows gone, families gone without them. -/
theorem Tables.fewer {s s' : House G U T} (h : Tables s) (hmembers : ∀ m ∈ s'.members, m ∈ s.members)
    (hplaced : ∀ m ∈ s'.members, m.group ∈ s.groups → m.group ∈ s'.groups)
    (hinvited : ∀ i ∈ s'.invitations, i.group ∈ s'.groups) : Tables s' where
  keyed m hm m' hm' := h.keyed m (hmembers m hm) m' (hmembers m' hm')
  oneOwner g u v := by
    rintro ⟨m, hm, hu⟩ ⟨m', hm', hv⟩
    exact h.oneOwner g u v ⟨m, hmembers m hm, hu⟩ ⟨m', hmembers m' hm', hv⟩
  placed g u := by
    rintro ⟨m, hm, rfl, hu⟩
    exact hplaced m hm (h.placed _ u ⟨m, hmembers m hm, rfl, hu⟩)
  invited := hinvited

/-! ### The statements -/

section

variable [DecidableEq G] [LinearOrder U] {s s' : House G U T} {g g' : G} {u v : U} {role : Role}

theorem mem_updateRole {m : Membership G U} : m ∈ (s.updateRole g u role).members ↔
    ∃ m₀ ∈ s.members, (if m₀.group = g ∧ m₀.user = u then { m₀ with role := role } else m₀) = m := List.mem_map

theorem mem_deleteMember {m : Membership G U} :
    m ∈ (s.deleteMember g u).members ↔ m ∈ s.members ∧ ¬(m.group = g ∧ m.user = u) := by
  rw [House.deleteMember, List.mem_filter, decide_eq_true_eq]

@[simp] theorem sits_updateRole : (s.updateRole g u role).Sits g' v ↔ s.Sits g' v := by
  constructor
  · rintro ⟨_, hm, rfl, rfl⟩
    obtain ⟨m, hold, rfl⟩ := mem_updateRole.mp hm
    refine ⟨m, hold, ?_⟩
    split <;> exact ⟨rfl, rfl⟩
  · rintro ⟨m, hm, rfl, rfl⟩
    refine ⟨_, mem_updateRole.mpr ⟨m, hm, rfl⟩, ?_⟩
    split <;> exact ⟨rfl, rfl⟩

theorem owns_updateRole (hrole : role ≠ .owner) :
    (s.updateRole g u role).Owns g' v ↔ s.Owns g' v ∧ ¬(g' = g ∧ v = u) := by
  constructor
  · rintro ⟨_, hm, hgroup, huser, howner⟩
    obtain ⟨m, hold, rfl⟩ := mem_updateRole.mp hm
    split at howner
    · exact absurd howner hrole
    · rename_i hother
      rw [if_neg hother] at hgroup huser
      exact ⟨⟨m, hold, hgroup, huser, howner⟩, hgroup ▸ huser ▸ hother⟩
  · rintro ⟨⟨m, hm, rfl, rfl, howner⟩, hother⟩
    exact ⟨m, mem_updateRole.mpr ⟨m, hm, if_neg hother⟩, rfl, rfl, howner⟩

theorem owns_updateRole_owner :
    (s.updateRole g u .owner).Owns g' v ↔ s.Owns g' v ∨ (g' = g ∧ v = u) ∧ s.Sits g' v := by
  constructor
  · rintro ⟨_, hm, hgroup, huser, howner⟩
    obtain ⟨m, hold, rfl⟩ := mem_updateRole.mp hm
    split at howner
    · rename_i hsame
      rw [if_pos hsame] at hgroup huser
      exact .inr ⟨⟨hgroup.symm.trans hsame.1, huser.symm.trans hsame.2⟩, m, hold, hgroup, huser⟩
    · rename_i hother
      rw [if_neg hother] at hgroup huser
      exact .inl ⟨m, hold, hgroup, huser, howner⟩
  · rintro (⟨m, hm, rfl, rfl, howner⟩ | ⟨⟨rfl, rfl⟩, m, hm, hsits⟩)
    · refine ⟨_, mem_updateRole.mpr ⟨m, hm, rfl⟩, ?_⟩
      split <;> exact ⟨rfl, rfl, by first | exact howner | rfl⟩
    · exact ⟨_, mem_updateRole.mpr ⟨m, hm, if_pos hsits⟩, hsits.1, hsits.2, rfl⟩

theorem sits_deleteMember : (s.deleteMember g u).Sits g' v ↔ s.Sits g' v ∧ ¬(g' = g ∧ v = u) := by
  constructor
  · rintro ⟨m, hm, rfl, rfl⟩
    obtain ⟨hm, hother⟩ := mem_deleteMember.mp hm
    exact ⟨⟨m, hm, rfl, rfl⟩, hother⟩
  · rintro ⟨⟨m, hm, rfl, rfl⟩, hother⟩
    exact ⟨m, mem_deleteMember.mpr ⟨hm, hother⟩, rfl, rfl⟩

theorem owns_deleteMember : (s.deleteMember g u).Owns g' v ↔ s.Owns g' v ∧ ¬(g' = g ∧ v = u) := by
  constructor
  · rintro ⟨m, hm, rfl, rfl, howner⟩
    obtain ⟨hm, hother⟩ := mem_deleteMember.mp hm
    exact ⟨⟨m, hm, rfl, rfl, howner⟩, hother⟩
  · rintro ⟨⟨m, hm, rfl, rfl, howner⟩, hother⟩
    exact ⟨m, mem_deleteMember.mpr ⟨hm, hother⟩, rfl, rfl, howner⟩

theorem Tables.updateRole (h : Tables s)
    (hone : ∀ g' v w, (s.updateRole g u role).Owns g' v → (s.updateRole g u role).Owns g' w → v = w) :
    Tables (s.updateRole g u role) where
  keyed m hm m' hm' hgroup huser := by
    obtain ⟨m, hold, rfl⟩ := mem_updateRole.mp hm
    obtain ⟨m', hold', rfl⟩ := mem_updateRole.mp hm'
    have hkept : ∀ m : Membership G U,
        (if m.group = g ∧ m.user = u then { m with role := role } else m).group = m.group ∧
          (if m.group = g ∧ m.user = u then { m with role := role } else m).user = m.user := fun m => by
      split <;> exact ⟨rfl, rfl⟩
    rw [(hkept m).1, (hkept m').1] at hgroup
    rw [(hkept m).2, (hkept m').2] at huser
    rw [h.keyed m hold m' hold' hgroup huser]
  oneOwner := hone
  placed g' v hv := h.placed g' v (sits_updateRole.mp hv)
  invited := h.invited

/-- A member made anything but owner. -/
theorem Tables.demoted (h : Tables s) (hrole : role ≠ .owner) : Tables (s.updateRole g u role) := by
  refine h.updateRole fun g' v w hv hw => ?_
  rw [owns_updateRole hrole] at hv hw
  exact h.oneOwner g' v w hv.1 hw.1

/-- A member made owner of a family without one. -/
theorem Tables.promoted (h : Tables s) (hfree : ∀ v, ¬s.Owns g v) : Tables (s.updateRole g u .owner) := by
  refine h.updateRole fun g' v w hv hw => ?_
  rw [owns_updateRole_owner] at hv hw
  rcases hv with hv | ⟨⟨rfl, rfl⟩, -⟩ <;> rcases hw with hw | ⟨⟨hg, rfl⟩, -⟩
  · exact h.oneOwner g' v w hv hw
  · exact absurd hv (hg ▸ hfree v)
  · exact absurd hw (hfree w)
  · rfl

theorem Tables.deleteMember (h : Tables s) : Tables (s.deleteMember g u) :=
  h.fewer (fun _ hm => (mem_deleteMember.mp hm).1) (fun _ _ hg => hg) h.invited

/-- The owner of a family is demoted, then another member promoted. -/
theorem Tables.transferred (h : Tables s) (howns : s.Owns g u) : Tables (performOwnershipTransfer s g u v) := by
  refine (h.demoted (by decide)).promoted fun w hw => ?_
  rw [owns_updateRole (by decide)] at hw
  exact hw.2 ⟨rfl, h.oneOwner g w u hw.1 howns⟩

theorem owns_transferred (hsits : s.Sits g v) : (performOwnershipTransfer s g u v).Owns g v :=
  owns_updateRole_owner.mpr (.inr ⟨⟨rfl, rfl⟩, sits_updateRole.mpr hsits⟩)

theorem owns_transferred_of_ne (hne : g' ≠ g) (howns : s.Owns g' v) {w : U} :
    (performOwnershipTransfer s g u w).Owns g' v :=
  owns_updateRole_owner.mpr (.inl ((owns_updateRole (by decide)).mpr ⟨howns, fun h => hne h.1⟩))

theorem requireRole_ok {role : Role} (h : requireRole s g u = .ok role) :
    ∃ m ∈ s.members, m.group = g ∧ m.user = u ∧ m.role = role := by
  rw [requireRole] at h
  split at h
  · rename_i m hfind
    have hfound := List.find?_some hfind
    rw [decide_eq_true_eq] at hfound
    obtain ⟨hgroup, huser⟩ := hfound
    exact ⟨m, List.mem_of_find?_eq_some hfind, hgroup, huser, Except.ok.inj h⟩
  · exact absurd h (by simp)

end

/-! ### The requests -/

/-- What leaves the tables sound, and every family in use with an owner. -/
structure Safe (s s' : House G U T) : Prop where
  tables : Tables s → Tables s'
  covered : Tables s → Covered s → Covered s'

/-- A family that keeps its owner, if it has one, or finds one. -/
theorem Covered.carry {s s' : House G U T} (h : Covered s)
    (hstep : ∀ g ∈ s'.groups, ∀ u, s'.Sits g u → s'.Active u → (∃ v, s'.Owns g v) ∨
      g ∈ s.groups ∧ (∃ v, s.Sits g v ∧ s.Active v) ∧ ∀ v, s.Owns g v → ∃ w, s'.Owns g w) : Covered s' := by
  rintro g hg ⟨u, hsits, hactive⟩
  rcases hstep g hg u hsits hactive with howned | ⟨hg, hbefore, hkept⟩
  · exact howned
  · obtain ⟨v, hv⟩ := h g hg hbefore
    exact hkept v hv

theorem Safe.trans {s₁ s₂ s₃ : House G U T} (h : Safe s₁ s₂) (h' : Safe s₂ s₃) : Safe s₁ s₃ where
  tables ht := h'.tables (h.tables ht)
  covered ht hc := h'.covered (h.tables ht) (h.covered ht hc)

section

variable [DecidableEq G] [LinearOrder U] {s s' : House G U T} {actor : U} {g : G}

theorem createGroup_safe (hfresh : g ∉ s.groups) (h : createGroup s actor g = .ok s') : Safe s s' := by
  rw [createGroup] at h
  split at h
  · exact absurd h (by simp)
  · obtain rfl := Except.ok.inj h
    refine ⟨fun ht => ?_, fun ht hc => hc.carry fun g' hg' u hsits hactive => ?_⟩
    · have hnew : ∀ m ∈ s.members, m.group ≠ g := fun m hm hgroup =>
        hfresh (hgroup ▸ ht.placed m.group m.user ⟨m, hm, rfl, rfl⟩)
      have howns : ∀ g' v, House.Owns (T := T) ⟨s.clock, g :: s.groups, ⟨g, actor, .owner, s.clock⟩ :: s.members,
          s.invitations, s.accounts⟩ g' v → g' = g ∧ v = actor ∨ g' ≠ g ∧ s.Owns g' v := by
        rintro g' v ⟨m, hm, rfl, rfl, howner⟩
        rcases List.mem_cons.mp hm with rfl | hm
        · exact .inl ⟨rfl, rfl⟩
        · exact .inr ⟨hnew m hm, m, hm, rfl, rfl, howner⟩
      refine ⟨fun m hm m' hm' hgroup huser => ?_, fun g' v w hv hw => ?_, fun g' v hv => ?_, fun i hi =>
        List.mem_cons_of_mem _ (ht.invited i hi)⟩
      · rcases List.mem_cons.mp hm with rfl | hm <;> rcases List.mem_cons.mp hm' with rfl | hm'
        · rfl
        · exact absurd hgroup.symm (hnew m' hm')
        · exact absurd hgroup (hnew m hm)
        · exact ht.keyed m hm m' hm' hgroup huser
      · rcases howns g' v hv with ⟨hg, rfl⟩ | ⟨hg, hv⟩ <;> rcases howns g' w hw with ⟨hg', rfl⟩ | ⟨hg', hw⟩
        · rfl
        · exact absurd hg hg'
        · exact absurd hg' hg
        · exact ht.oneOwner g' v w hv hw
      · obtain ⟨m, hm, rfl, rfl⟩ := hv
        rcases List.mem_cons.mp hm with rfl | hm
        · exact List.mem_cons_self
        · exact List.mem_cons_of_mem _ (ht.placed m.group m.user ⟨m, hm, rfl, rfl⟩)
    · by_cases hg : g' = g
      · exact .inl ⟨actor, _, List.mem_cons_self, hg.symm, rfl, rfl⟩
      · obtain ⟨m, hm, hgroup, huser⟩ := hsits
        have hm := (List.mem_cons.mp hm).resolve_left fun heq => hg (hgroup.symm.trans (congrArg Membership.group heq))
        refine .inr ⟨(List.mem_cons.mp hg').resolve_left hg, ⟨u, ⟨m, hm, hgroup, huser⟩, hactive⟩, ?_⟩
        rintro v ⟨o, ho, hv⟩
        exact ⟨v, o, List.mem_cons_of_mem _ ho, hv⟩

theorem createInvitation_safe {token : T} (h : createInvitation s actor g token = .ok s') : Safe s s' := by
  simp only [createInvitation, bind_eq_ok, guard_eq_ok] at h
  obtain ⟨role, hrole, -, h⟩ := h
  obtain rfl := Except.ok.inj h
  obtain ⟨m, hm, hgroup, huser, -⟩ := requireRole_ok hrole
  refine ⟨fun ht => ht.same rfl (fun _ => Iff.rfl) fun i hi => ?_, fun _ hc => hc⟩
  rcases List.mem_cons.mp hi with rfl | hi
  · exact ht.placed g actor ⟨m, hm, hgroup, huser⟩
  · exact ht.invited i hi

/-- The member who accepts is one more, of the families no one's owner. -/
theorem acceptInvitation_ok [DecidableEq T] {token : T} (ht : Tables s) (h : acceptInvitation s actor token = .ok s') :
    ∃ i, s.invitations.find? (fun i => i.token = token) = some i ∧ s'.groups = s.groups ∧ s'.accounts = s.accounts ∧
      (∀ g u, s'.Owns g u ↔ s.Owns g u) ∧ (∀ g u, s'.Sits g u ↔ s.Sits g u ∨ g = i.group ∧ u = actor) ∧ Tables s' := by
  rw [acceptInvitation] at h
  split at h
  · exact absurd h (by simp)
  · rename_i i hfind
    split at h
    · exact absurd h (by simp)
    · obtain rfl := Except.ok.inj h
      have hinvited : ∀ j ∈ s.invitations.filter (fun i => i.token ≠ token), j.group ∈ s.groups := fun j hj =>
        ht.invited j (List.mem_of_mem_filter hj)
      refine ⟨i, hfind, rfl, rfl, ?_⟩
      by_cases hsits : s.members.any fun m => m.group = i.group ∧ m.user = actor
      · simp only [if_pos hsits]
        obtain ⟨m, hm, hmember⟩ := List.any_eq_true.mp hsits
        obtain ⟨hgroup, huser⟩ := of_decide_eq_true hmember
        refine ⟨fun _ _ => Iff.rfl, fun g u => ?_, ht.same rfl (fun _ => Iff.rfl) hinvited⟩
        refine (or_iff_left_of_imp ?_).symm
        rintro ⟨rfl, rfl⟩
        exact ⟨m, hm, hgroup, huser⟩
      · simp only [if_neg hsits]
        have hnew : ∀ m ∈ s.members, ¬(m.group = i.group ∧ m.user = actor) := fun m hm hmember =>
          hsits (List.any_eq_true.mpr ⟨m, hm, decide_eq_true hmember⟩)
        have howns : ∀ g u, House.Owns (T := T) ⟨s.clock, s.groups, ⟨i.group, actor, .standard, s.clock⟩ :: s.members,
            s.invitations.filter (fun i => i.token ≠ token), s.accounts⟩ g u ↔ s.Owns g u := fun g u => by
          constructor
          · rintro ⟨m, hm, hgroup, huser, howner⟩
            rcases List.mem_cons.mp hm with rfl | hm
            · exact absurd howner (by simp)
            · exact ⟨m, hm, hgroup, huser, howner⟩
          · rintro ⟨m, hm, howner⟩
            exact ⟨m, List.mem_cons_of_mem _ hm, howner⟩
        have hsitting : ∀ g u, House.Sits (T := T) ⟨s.clock, s.groups, ⟨i.group, actor, .standard, s.clock⟩ :: s.members,
            s.invitations.filter (fun i => i.token ≠ token), s.accounts⟩ g u ↔
              s.Sits g u ∨ g = i.group ∧ u = actor := fun g u => by
          constructor
          · rintro ⟨m, hm, rfl, rfl⟩
            rcases List.mem_cons.mp hm with rfl | hm
            · exact .inr ⟨rfl, rfl⟩
            · exact .inl ⟨m, hm, rfl, rfl⟩
          · rintro (⟨m, hm, hmember⟩ | ⟨rfl, rfl⟩)
            · exact ⟨m, List.mem_cons_of_mem _ hm, hmember⟩
            · exact ⟨_, List.mem_cons_self, rfl, rfl⟩
        refine ⟨howns, hsitting, fun m hm m' hm' hgroup huser => ?_, fun g u v hu hv =>
          ht.oneOwner g u v ((howns g u).mp hu) ((howns g v).mp hv), fun g u hu => ?_, hinvited⟩
        · rcases List.mem_cons.mp hm with rfl | hm <;> rcases List.mem_cons.mp hm' with rfl | hm'
          · rfl
          · exact absurd ⟨hgroup.symm, huser.symm⟩ (hnew m' hm')
          · exact absurd ⟨hgroup, huser⟩ (hnew m hm)
          · exact ht.keyed m hm m' hm' hgroup huser
        · rcases (hsitting g u).mp hu with hu | ⟨rfl, -⟩
          · exact ht.placed g u hu
          · exact ht.invited i (List.mem_of_find?_eq_some hfind)

/-- Whoever joins a family with an owner leaves it with one; whoever joins a family without leaves it without. -/
theorem acceptInvitation_covered [DecidableEq T] {token : T} (hactor : s.Active actor) (ht : Tables s) (hc : Covered s)
    (h : acceptInvitation s actor token = .ok s') :
    Covered s' ↔ ∀ i, s.invitations.find? (fun i => i.token = token) = some i → ∃ u, s.Owns i.group u := by
  obtain ⟨i, hfind, hgroups, haccounts, howns, hsits, -⟩ := acceptInvitation_ok ht h
  have hactive : ∀ u, s'.Active u ↔ s.Active u := fun u => by rw [House.Active, House.Active, haccounts]
  constructor
  · intro hc' j hj
    obtain rfl := Option.some.inj (hfind.symm.trans hj)
    have hplaced := ht.invited i (List.mem_of_find?_eq_some hfind)
    obtain ⟨u, hu⟩ := hc' i.group (hgroups ▸ hplaced)
      ⟨actor, (hsits _ _).mpr (.inr ⟨rfl, rfl⟩), (hactive actor).mpr hactor⟩
    exact ⟨u, (howns _ _).mp hu⟩
  · refine fun howned => hc.carry fun g hg u hu hin => ?_
    rcases (hsits g u).mp hu with hu | ⟨rfl, -⟩
    · exact .inr ⟨hgroups ▸ hg, ⟨u, hu, (hactive u).mp hin⟩, fun v hv => ⟨v, (howns g v).mpr hv⟩⟩
    · obtain ⟨v, hv⟩ := howned i hfind
      exact .inl ⟨v, (howns _ _).mpr hv⟩

theorem actorCanActOn_not_owner {a r : Role} (h : actorCanActOn a r = true) : r ≠ .owner := by
  rintro rfl
  exact absurd h (by cases a <;> decide)

/-- A member who is not the owner gets another role. -/
theorem updateRole_safe {u : U} {role : Role} (hrole : role ≠ .owner) (hnot : Tables s → ¬s.Owns g u) :
    Safe s (s.updateRole g u role) where
  tables ht := ht.demoted hrole
  covered ht hc := hc.carry fun _ hg v hv hactive => .inr ⟨hg, ⟨v, sits_updateRole.mp hv, hactive⟩, fun w hw =>
    ⟨w, (owns_updateRole hrole).mpr ⟨hw, fun h => hnot ht (h.1 ▸ h.2 ▸ hw)⟩⟩⟩

/-- A member who is not the owner goes. -/
theorem deleteMember_safe {u : U} (hnot : Tables s → ¬s.Owns g u) : Safe s (s.deleteMember g u) where
  tables ht := ht.deleteMember
  covered ht hc := hc.carry fun _ hg v hv hactive => .inr ⟨hg, ⟨v, (sits_deleteMember.mp hv).1, hactive⟩, fun w hw =>
    ⟨w, owns_deleteMember.mpr ⟨hw, fun h => hnot ht (h.1 ▸ h.2 ▸ hw)⟩⟩⟩

theorem performOwnershipTransfer_safe {u v : U} (howns : s.Owns g u) (hsits : s.Sits g v) :
    Safe s (performOwnershipTransfer s g u v) where
  tables ht := ht.transferred howns
  covered _ hc := hc.carry fun g' hg w hw hactive => by
    by_cases hgroup : g' = g
    · exact .inl ⟨v, by rw [hgroup]; exact owns_transferred hsits⟩
    · exact .inr ⟨hg, ⟨w, sits_updateRole.mp (sits_updateRole.mp hw), hactive⟩, fun x hx =>
        ⟨x, owns_transferred_of_ne hgroup hx⟩⟩

theorem changeRole_safe {target : U} {named : Option Role} (h : changeRole s actor g target named = .ok s') :
    Safe s s' := by
  unfold changeRole at h
  split at h
  -- the role asked for: `admin`, `standard`, or none
  case' h_3 =>
    simp only [bind_eq_ok] at h
    obtain ⟨_, h, -⟩ := h
    exact absurd h throw_ne_ok
  all_goals
    simp only [bind_eq_ok, guard_eq_ok, Bool.not_eq_true', Bool.not_eq_false] at h
    obtain ⟨role, hrole, actorRole, -, targetRole, htarget, hcan, h⟩ := h
    obtain rfl := Except.ok.inj hrole
    obtain rfl := Except.ok.inj h
    obtain ⟨m, hm, rfl, rfl, rfl⟩ := requireRole_ok htarget
    exact updateRole_safe (by decide) fun ht => ht.not_owns hm (actorCanActOn_not_owner hcan)

theorem removeMember_safe {target : U} (h : removeMember s actor g target = .ok s') : Safe s s' := by
  simp only [removeMember, bind_eq_ok, guard_eq_ok, Bool.not_eq_true', Bool.not_eq_false] at h
  obtain ⟨actorRole, -, targetRole, htarget, hcan, h⟩ := h
  obtain rfl := Except.ok.inj h
  obtain ⟨m, hm, rfl, rfl, rfl⟩ := requireRole_ok htarget
  exact deleteMember_safe fun ht => ht.not_owns hm (actorCanActOn_not_owner hcan)

theorem leaveGroup_safe {newOwner : Option U} (h : leaveGroup s actor g newOwner = .ok s') : Safe s s' := by
  simp only [leaveGroup, bind_eq_ok, guard_eq_ok] at h
  obtain ⟨role, hrole, -, h⟩ := h
  obtain ⟨m, hm, rfl, rfl, rfl⟩ := requireRole_ok hrole
  split at h
  · rename_i howner
    split at h
    · exact absurd h throw_ne_ok
    · rename_i newOwner
      obtain ⟨hne, h⟩ := guard_eq_ok.mp h
      obtain ⟨_, hnew, h⟩ := bind_eq_ok.mp h
      obtain rfl := Except.ok.inj h
      obtain ⟨n, hn, hgroup, huser, -⟩ := requireRole_ok hnew
      refine (performOwnershipTransfer_safe ⟨m, hm, rfl, rfl, howner⟩ ⟨n, hn, hgroup, huser⟩).trans
        (deleteMember_safe fun _ howns => ?_)
      rcases owns_updateRole_owner.mp howns with hstill | ⟨⟨-, heq⟩, -⟩
      · exact ((owns_updateRole (by decide)).mp hstill).2 ⟨rfl, rfl⟩
      · exact hne heq.symm
  · rename_i howner
    obtain rfl := Except.ok.inj h
    exact deleteMember_safe fun ht => ht.not_owns hm howner

theorem transferOwnership_safe {newOwner : U} (h : transferOwnership s actor g newOwner = .ok s') : Safe s s' := by
  simp only [transferOwnership, bind_eq_ok, guard_eq_ok, Bool.not_eq_true', Bool.not_eq_false] at h
  obtain ⟨role, hrole, howner, -, hsits, h⟩ := h
  obtain rfl := Except.ok.inj h
  obtain ⟨m, hm, rfl, rfl, rfl⟩ := requireRole_ok hrole
  obtain ⟨n, hn, hmember⟩ := List.any_eq_true.mp hsits
  obtain ⟨hgroup, huser⟩ := of_decide_eq_true hmember
  exact performOwnershipTransfer_safe ⟨m, hm, rfl, rfl, not_not.mp howner⟩ ⟨n, hn, hgroup, huser⟩

omit [LinearOrder U] in
/-- A family goes with its members and its invitations. -/
theorem House.deleteGroup_safe (s : House G U T) (g : G) : Safe s (s.deleteGroup g) where
  tables ht := by
    refine ht.fewer (fun m hm => List.mem_of_mem_filter hm) (fun m hm hg => ?_) fun i hi => ?_
    · exact List.mem_filter.mpr ⟨hg, decide_eq_true (of_decide_eq_true (List.mem_filter.mp hm).2)⟩
    · obtain ⟨hi, hother⟩ := List.mem_filter.mp hi
      exact List.mem_filter.mpr ⟨ht.invited i hi, decide_eq_true (of_decide_eq_true hother)⟩
  covered _ hc := hc.carry fun g' hg u hu hactive => by
    obtain ⟨hg, hother⟩ := List.mem_filter.mp hg
    obtain ⟨m, hm, hgroup, huser⟩ := hu
    refine .inr ⟨hg, ⟨u, ⟨m, List.mem_of_mem_filter hm, hgroup, huser⟩, hactive⟩, ?_⟩
    rintro v ⟨o, ho, rfl, hv⟩
    exact ⟨v, o, List.mem_filter.mpr ⟨ho, hother⟩, rfl, hv⟩

theorem deleteGroup_safe (h : deleteGroup s actor g = .ok s') : Safe s s' := by
  simp only [deleteGroup, bind_eq_ok, guard_eq_ok] at h
  obtain ⟨role, -, -, h⟩ := h
  obtain rfl := Except.ok.inj h
  exact s.deleteGroup_safe g

end

/-! ### The superadmin and the purge -/

section

variable [LinearOrder U] {s s' : House G U T} {g : G} {u : U}

/-- An account changed, and not put in use again. -/
theorem updateAccount_safe {row : PurgeClock} (hactive : (s.updateAccount u row).Active u → s.Active u) :
    Safe s (s.updateAccount u row) where
  tables ht := ht.same rfl (fun _ => Iff.rfl) ht.invited
  covered _ hc := hc.carry fun g hg v hv hin => by
    refine .inr ⟨hg, ⟨v, hv, ?_⟩, fun w hw => ⟨w, hw⟩⟩
    by_cases heq : v = u
    · subst heq
      exact hactive hin
    · rw [House.Active, House.updateAccount] at hin
      simp only [if_neg heq] at hin
      exact hin

theorem updateAccount_self (s : House G U T) (u : U) (row : PurgeClock) : (s.updateAccount u row).accounts u = row :=
  if_pos rfl

theorem deactivateUser_safe (h : deactivateUser s u = .ok s') : Safe s s' := by
  rw [deactivateUser, bind_eq_ok] at h
  obtain ⟨row, hrow, h⟩ := h
  obtain rfl := Except.ok.inj h
  refine updateAccount_safe fun hactive => absurd hactive.1 ?_
  rw [updateAccount_self, (Account.deactivateUser_ok hrow).2]
  simp

/-- The families a user owns. -/
def owned (s : House G U T) (u : U) : List G :=
  ((s.members.filter fun m => m.user = u).filter fun m => m.role = .owner).map (·.group)

theorem mem_owned : g ∈ owned s u ↔ s.Owns g u := by
  simp only [owned, List.mem_map, List.mem_filter, decide_eq_true_eq, House.Owns]
  constructor
  · rintro ⟨m, ⟨⟨hm, huser⟩, howner⟩, rfl⟩
    exact ⟨m, hm, rfl, huser, howner⟩
  · rintro ⟨m, hm, rfl, huser, howner⟩
    exact ⟨m, ⟨⟨hm, huser⟩, howner⟩, rfl⟩

/-- The memberships of a user gone. -/
def House.without (s : House G U T) (u : U) : House G U T := { s with members := s.members.filter fun m => m.user ≠ u }

theorem sits_without {v : U} : (s.without u).Sits g v ↔ s.Sits g v ∧ v ≠ u := by
  simp only [House.Sits, House.without, List.mem_filter, decide_eq_true_eq]
  constructor
  · rintro ⟨m, ⟨hm, hother⟩, rfl, rfl⟩
    exact ⟨⟨m, hm, rfl, rfl⟩, hother⟩
  · rintro ⟨⟨m, hm, rfl, rfl⟩, hother⟩
    exact ⟨m, ⟨hm, hother⟩, rfl, rfl⟩

theorem owns_without {v : U} : (s.without u).Owns g v ↔ s.Owns g v ∧ v ≠ u := by
  simp only [House.Owns, House.without, List.mem_filter, decide_eq_true_eq]
  constructor
  · rintro ⟨m, ⟨hm, hother⟩, rfl, rfl, howner⟩
    exact ⟨⟨m, hm, rfl, rfl, howner⟩, hother⟩
  · rintro ⟨⟨m, hm, rfl, rfl, howner⟩, hother⟩
    exact ⟨m, ⟨hm, hother⟩, rfl, rfl, howner⟩

/-- The account anonymised, its invitations gone. -/
theorem close_safe {row : PurgeClock} (hrow : row.deletedAt.isSome) :
    Safe s (House.updateAccount { s with invitations := s.invitations.filter fun i => i.createdBy ≠ u } u row) := by
  have hless : Safe s { s with invitations := s.invitations.filter fun i => i.createdBy ≠ u } :=
    ⟨fun ht => ht.same rfl (fun _ => Iff.rfl) fun i hi => ht.invited i (List.mem_of_mem_filter hi), fun _ hc => hc⟩
  refine hless.trans (updateAccount_safe fun hactive => absurd hactive.2 ?_)
  rw [updateAccount_self]
  exact Option.isSome_iff_ne_none.mp hrow

end

section

variable [DecidableEq G] {s s' : House G U T} {g : G} {u : U}

theorem sits_iff_rowsOf : s.Sits g u ↔ ∃ m ∈ rowsOf s.members g, m.user = u := by
  simp only [House.Sits, mem_rowsOf, and_assoc]

theorem owns_iff_rowsOf : s.Owns g u ↔ ∃ m ∈ rowsOf s.members g, m.user = u ∧ m.role = .owner := by
  simp only [House.Owns, mem_rowsOf, and_assoc]

/-- A family is deleted once it has no member: no membership goes. -/
theorem deleteIfAbandoned_members (s : House G U T) (g : G) : (deleteIfAbandoned s g).members = s.members := by
  rw [deleteIfAbandoned]
  split
  · rename_i hempty
    refine List.filter_eq_self.mpr fun m hm => decide_eq_true fun hgroup => ?_
    rw [List.isEmpty_iff] at hempty
    exact absurd (mem_rowsOf.mpr ⟨hm, hgroup⟩) (hempty ▸ List.not_mem_nil)
  · rfl

theorem foldl_deleteIfAbandoned_members (gs : List G) (s : House G U T) :
    (gs.foldl deleteIfAbandoned s).members = s.members := by
  induction gs generalizing s with
  | nil => rfl
  | cons g gs ih => exact (ih _).trans (deleteIfAbandoned_members s g)

theorem foldl_deleteIfAbandoned_safe (gs : List G) (s : House G U T) : Safe s (gs.foldl deleteIfAbandoned s) := by
  induction gs generalizing s with
  | nil => exact ⟨id, fun _ => id⟩
  | cons g gs ih =>
    refine Safe.trans ?_ (ih _)
    rw [deleteIfAbandoned]
    split
    · exact s.deleteGroup_safe g
    · exact ⟨id, fun _ => id⟩

variable [LinearOrder U]

/-- A family is handed on only if it has no owner. -/
theorem assignHeir_tables (ht : Tables s) : Tables (assignHeir s g) := by
  rw [assignHeir_eq]
  split
  · exact ht
  · rename_i heir hheir
    refine ht.promoted fun v hv => ?_
    obtain ⟨m, hm, -, howner⟩ := owns_iff_rowsOf.mp hv
    exact (heirOf_eq_some.mp hheir).1 m hm howner

theorem foldl_assignHeir_tables (gs : List G) (ht : Tables s) : Tables (gs.foldl assignHeir s) := by
  induction gs generalizing s with
  | nil => exact ht
  | cons g gs ih => exact ih (assignHeir_tables ht)

theorem foldl_assignHeir_groups (gs : List G) (s : House G U T) : (gs.foldl assignHeir s).groups = s.groups := by
  induction gs generalizing s with
  | nil => rfl
  | cons g gs ih =>
    refine (ih _).trans ?_
    rw [assignHeir_eq]
    split <;> rfl

theorem sits_foldl_assignHeir (gs : List G) : (gs.foldl assignHeir s).Sits g u ↔ s.Sits g u := by
  rw [sits_iff_rowsOf, sits_iff_rowsOf, rowsOf_foldl_assignHeir]
  split
  · exact exists_handed
  · rfl

/-- Families handed on: every one in use has an owner, if those left out have. -/
theorem foldl_assignHeir_covered (gs : List G)
    (hrest : ∀ g ∈ s.groups, g ∉ gs → (∃ u, s.Sits g u ∧ s.Active u) → ∃ u, s.Owns g u) :
    Covered (gs.foldl assignHeir s) := by
  rintro g hg ⟨u, hsits, hactive⟩
  rw [foldl_assignHeir_groups] at hg
  rw [sits_foldl_assignHeir] at hsits
  rw [House.Active, foldl_assignHeir_accounts] at hactive
  simp only [owns_iff_rowsOf, rowsOf_foldl_assignHeir]
  split
  · obtain ⟨m, hm, huser⟩ := sits_iff_rowsOf.mp hsits
    obtain ⟨o, ho, howner⟩ := exists_owner_handed hm (by rw [huser]; exact hactive.1)
    exact ⟨o.user, o, ho, rfl, howner⟩
  · rename_i hout
    obtain ⟨v, hv⟩ := hrest g hg hout ⟨u, hsits, hactive⟩
    exact ⟨v, owns_iff_rowsOf.mp hv⟩

theorem mem_ownerless : g ∈ ownerless s u ↔ s.Sits g u ∧ ∀ v, ¬s.Owns g v := by
  simp only [ownerless, List.mem_map, List.mem_filter, decide_eq_true_eq, List.any_eq_true, House.Sits, House.Owns]
  constructor
  · rintro ⟨m, ⟨hm, huser, hfree⟩, rfl⟩
    refine ⟨⟨m, hm, rfl, huser⟩, ?_⟩
    rintro v ⟨o, ho, hgroup, -, howner⟩
    exact hfree ⟨o, ho, hgroup, howner⟩
  · rintro ⟨⟨m, hm, rfl, huser⟩, hfree⟩
    refine ⟨m, ⟨hm, huser, ?_⟩, rfl⟩
    rintro ⟨o, ho, hgroup, howner⟩
    exact hfree o.user ⟨o, ho, hgroup, rfl, howner⟩

/-- An account given back: the families it sits in find an owner. -/
theorem reactivateUser_safe (h : reactivateUser s u = .ok s') : Safe s s' := by
  rw [reactivateUser, bind_eq_ok] at h
  obtain ⟨row, -, h⟩ := h
  obtain rfl := Except.ok.inj h
  refine ⟨fun ht => foldl_assignHeir_tables _ (ht.same rfl (fun _ => Iff.rfl) ht.invited), fun _ hc => ?_⟩
  refine foldl_assignHeir_covered _ fun g hg hout => ?_
  rintro ⟨v, hsits, hactive⟩
  by_cases heq : v = u
  · subst heq
    by_contra hfree
    exact hout (mem_ownerless.mpr ⟨hsits, fun w hw => hfree ⟨w, hw⟩⟩)
  · refine hc g hg ⟨v, hsits, ?_⟩
    rw [House.Active, House.updateAccount] at hactive
    simp only [if_neg heq] at hactive
    exact hactive

theorem designateOwner_safe (h : designateOwner s g u = .ok s') : Safe s s' := by
  rw [designateOwner] at h
  split at h
  · exact absurd h (by simp)
  · dsimp only at h
    split at h
    · exact absurd h (by simp)
    · exact absurd h (by simp)
    · exact absurd h (by simp)
    · rename_i hcheck
      obtain rfl := Except.ok.inj h
      have hfree : ∀ v, ¬s.Owns g v := fun v hv => by
        obtain ⟨m, hm, -, howner⟩ := owns_iff_rowsOf.mp hv
        have howned : (lockMembers s g).1 = true := List.any_eq_true.mpr ⟨m, hm, decide_eq_true howner⟩
        rw [checkDesignation.eq_def, if_pos howned] at hcheck
        exact absurd hcheck (by simp)
      refine ⟨fun ht => ht.promoted hfree, fun _ hc => hc.carry fun g' hg v hv hactive => ?_⟩
      exact .inr ⟨hg, ⟨v, sits_updateRole.mp hv, hactive⟩, fun w hw => ⟨w, owns_updateRole_owner.mpr (.inl hw)⟩⟩

/-! ### The purge -/

theorem rowsOf_without (s : House G U T) (g : G) (u : U) :
    rowsOf (s.without u).members g = (rowsOf s.members g).filter fun m => m.user ≠ u := List.filter_comm _ _ _

variable {chrono : Chrono}

/-- The purge: the memberships go, the families owned are handed on, the rest is put away. -/
theorem purgeAccount_ok (h : purgeAccount chrono s u = some s') :
    Safe ((owned s u).foldl assignHeir (s.without u)) s' ∧
      s'.members = ((owned s u).foldl assignHeir (s.without u)).members := by
  rw [purgeAccount, Option.map_eq_some_iff] at h
  obtain ⟨row, hrow, rfl⟩ := h
  refine ⟨(foldl_deleteIfAbandoned_safe _ _).trans (close_safe ?_), foldl_deleteIfAbandoned_members _ _⟩
  rw [Account.purgeAccount_some hrow]
  rfl

theorem purgeAccount_safe (h : purgeAccount chrono s u = some s') : Safe s s' := by
  obtain ⟨hafter, -⟩ := purgeAccount_ok h
  have htables : Tables s → Tables ((owned s u).foldl assignHeir (s.without u)) := fun ht =>
    foldl_assignHeir_tables _ (ht.fewer (fun _ hm => List.mem_of_mem_filter hm) (fun _ _ hg => hg) ht.invited)
  refine ⟨fun ht => hafter.tables (htables ht), fun ht hc => hafter.covered (htables ht) ?_⟩
  refine foldl_assignHeir_covered _ fun g hg hout => ?_
  rintro ⟨v, hsits, hactive⟩
  obtain ⟨w, hw⟩ := hc g hg ⟨v, (sits_without.mp hsits).1, hactive⟩
  exact ⟨w, owns_without.mpr ⟨hw, fun heq => hout (mem_owned.mpr (heq ▸ hw))⟩⟩

/-- A family whose owner is purged goes to its heir. -/
theorem owns_purged (ht : Tables s) (h : purgeAccount chrono s u = some s') (howns : s.Owns g u) (v : U) :
    s'.Owns g v ↔ Heir (((rowsOf s.members g).filter fun m => m.user ≠ u).map (remaining s.accounts)) v := by
  have hfree : ∀ m ∈ (rowsOf s.members g).filter (fun m => m.user ≠ u), m.role ≠ .owner := by
    intro m hm howner
    obtain ⟨hm, hother⟩ := List.mem_filter.mp hm
    exact of_decide_eq_true hother (ht.oneOwner g m.user u (owns_iff_rowsOf.mpr ⟨m, hm, rfl, howner⟩) howns)
  rw [owns_iff_rowsOf, (purgeAccount_ok h).2, rowsOf_foldl_assignHeir, if_pos (mem_owned.mpr howns), rowsOf_without]
  exact owner_handed hfree v

end

/-! ### Whole histories -/

section

variable [DecidableEq G] [LinearOrder U] [DecidableEq T] {chrono : Chrono} {s s' s₀ : House G U T} {e : Event G U T}

/-- STEP: all but an acceptance keeps every family in use with an owner. -/
theorem Step.safe (h : Step chrono e s s') (hnot : ∀ actor token, e ≠ .request (.accept actor token)) : Safe s s' := by
  cases h with
  | tick => exact ⟨fun ht => ht.same rfl (fun _ => Iff.rfl) ht.invited, fun _ hc => hc⟩
  | reorder _ members h =>
    refine ⟨fun ht => ht.same rfl (fun m => h.mem_iff) ht.invited, fun _ hc => ?_⟩
    simp only [Covered, House.Sits, House.Owns, h.mem_iff]
    exact hc
  | account _ u row told told' h =>
    refine updateAccount_safe fun hactive => ?_
    rw [House.Active, updateAccount_self] at hactive
    exact ⟨h.deactivatedAt.symm.trans hactive.1, h.deletedAt.symm.trans hactive.2⟩
  | request _ _ r hactor hfresh h =>
    cases r with
    | create actor g => exact createGroup_safe hfresh h
    | accept actor token => exact absurd rfl (hnot actor token)
    | changeRole actor g target named => exact changeRole_safe h
    | remove actor g target => exact removeMember_safe h
    | leave actor g newOwner => exact leaveGroup_safe h
    | transfer actor g newOwner => exact transferOwnership_safe h
    | delete actor g => exact deleteGroup_safe h
  | invite _ _ actor g token hactor h => exact createInvitation_safe h
  | deactivate _ _ u h => exact deactivateUser_safe h
  | reactivate _ _ u h => exact reactivateUser_safe h
  | designate _ _ g u h => exact designateOwner_safe h
  | purge _ _ u h => exact purgeAccount_safe h

theorem Step.tables (h : Step chrono e s s') (ht : Tables s) : Tables s' := by
  by_cases hnot : ∀ actor token, e ≠ .request (.accept actor token)
  · exact (h.safe hnot).tables ht
  · push Not at hnot
    obtain ⟨actor, token, rfl⟩ := hnot
    cases h with
    | request _ _ _ hactor hfresh h =>
      obtain ⟨i, -, -, -, -, -, ht'⟩ := acceptInvitation_ok ht h
      exact ht'

/-- STEP: a family in use without an owner comes of an invitation into a family that has none, and of nothing else. -/
theorem Step.covered (h : Step chrono e s s') (ht : Tables s) (hc : Covered s) : Covered s' ↔ Housed s e := by
  by_cases hnot : ∀ actor token, e ≠ .request (.accept actor token)
  · refine iff_of_true ((h.safe hnot).covered ht hc) ?_
    unfold Housed
    split
    · exact absurd rfl (hnot _ _)
    · trivial
  · push Not at hnot
    obtain ⟨actor, token, rfl⟩ := hnot
    cases h with
    | request _ _ _ hactor hfresh h => exact acceptInvitation_covered hactor ht hc h

theorem tables_of_steps (ht : Tables s₀) (hrun : ReflTransGen (fun s s' => ∃ e, Step chrono e s s') s₀ s) :
    Tables s := by
  induction hrun with
  | refl => exact ht
  | tail _ hstep ih =>
    obtain ⟨e, hstep⟩ := hstep
    exact hstep.tables ih

variable (chrono) in
/-- NO FAMILY IN USE WITHOUT AN OWNER: in every history from families with an owner in use, as long as nobody is
    invited into a family without one, and no longer; and in every history at all, a family whose owner is purged
    goes to an eligible member no other ranks before, the one `successor` names in whatever order it reads them. -/
theorem owned_in_use (ht : Tables s₀) (hstart : ∀ g ∈ s₀.groups, ∃ u, s₀.Owns g u ∧ s₀.Active u) :
    (∀ s, ReflTransGen (fun s s' => ∃ e, Step chrono e s s' ∧ Housed s e) s₀ s →
      Covered s ∧ ∀ e s', Step chrono e s s' → (Covered s' ↔ Housed s e)) ∧
    ∀ s, ReflTransGen (fun s s' => ∃ e, Step chrono e s s') s₀ s →
      ∀ u s', Step chrono (.purge u) s s' → ∀ g, s.Owns g u → ∀ listing : List (RemainingMember U),
        listing.Perm (((rowsOf s.members g).filter fun m => m.user ≠ u).map (remaining s.accounts)) →
        ∀ v, (s'.Owns g v ↔ successor listing = some v) ∧ (successor listing = some v ↔ Heir listing v) := by
  refine ⟨fun s hrun => ?_, fun s hrun u s' hpurge g howns listing hlisting v => ⟨?_, successor_eq_some⟩⟩
  · have hkept : Tables s ∧ Covered s := by
      induction hrun with
      | refl =>
        refine ⟨ht, fun g hg _ => ?_⟩
        obtain ⟨u, howns, -⟩ := hstart g hg
        exact ⟨u, howns⟩
      | tail _ hstep ih =>
        obtain ⟨e, hstep, hhoused⟩ := hstep
        exact ⟨hstep.tables ih.1, (hstep.covered ih.1 ih.2).mpr hhoused⟩
    exact ⟨hkept.2, fun e s' hstep => hstep.covered hkept.1 hkept.2⟩
  · have hkept := tables_of_steps ht hrun
    cases hpurge with
    | purge _ _ _ h => rw [owns_purged hkept h howns, successor_eq_some, Heir.perm hlisting]

end

/-! ### An invitation that outlives them all -/

open Account (fromMarch march)

/-- An account in use. -/
def inUse : PurgeClock := ⟨none, none, none, none, false, none⟩

/-- An account the superadmin deactivated. -/
def shut (at_ : ℤ) : PurgeClock := ⟨none, some at_, none, none, false, none⟩

/-- In March: 0 owns the family, 1 is an admin of it, 2 is not in it. -/
def household : House ℕ ℕ ℕ where
  clock := march
  groups := [0]
  members := [⟨0, 0, .owner, march⟩, ⟨0, 1, .admin, march⟩]
  invitations := []
  accounts _ := inUse

/-- 0 deactivated since March, 1 has just been, and has invited someone. -/
def emptied : House ℕ ℕ ℕ where
  clock := march + 761 * day
  groups := [0]
  members := [⟨0, 0, .owner, march⟩, ⟨0, 1, .admin, march⟩]
  invitations := [⟨0, 0, 1, march + 767 * day⟩]
  accounts u := if u = 1 then shut (march + 760 * day) else if u = 0 then shut march else inUse

theorem household_tables : Tables household where
  keyed := by decide
  oneOwner g u v hu hv := by
    obtain ⟨m, hm, -, rfl, howner⟩ := hu
    obtain ⟨m', hm', -, rfl, howner'⟩ := hv
    revert m m'
    decide
  placed g u hu := by
    obtain ⟨m, hm, rfl, -⟩ := hu
    revert m
    decide
  invited i hi := absurd hi List.not_mem_nil

theorem household_owned : ∀ g ∈ household.groups, ∃ u, household.Owns g u ∧ household.Active u := by
  intro g hg
  obtain rfl := List.mem_singleton.mp hg
  exact ⟨0, ⟨⟨0, 0, .owner, march⟩, List.mem_cons_self, rfl, rfl, rfl⟩, rfl, rfl⟩

/-- Nobody joins on the way. -/
theorem emptied_reached : ReflTransGen (fun s s' => ∃ e, Step fromMarch e s s' ∧ Housed s e) household emptied := by
  refine .head ⟨_, .deactivate _ _ 0 rfl, trivial⟩ ?_
  refine .head ⟨_, .tick _ (march + 760 * day) (by decide), trivial⟩ ?_
  refine .head ⟨_, .invite _ _ 1 0 0 ⟨rfl, rfl⟩ rfl, trivial⟩ ?_
  refine .head ⟨_, .deactivate _ _ 1 rfl, trivial⟩ ?_
  exact .single ⟨_, .tick _ (march + 761 * day) (by decide), trivial⟩

/-- As `emptied`, 1 still in use and nobody invited. -/
def promising : House ℕ ℕ ℕ where
  clock := march + 761 * day
  groups := [0]
  members := [⟨0, 0, .owner, march⟩, ⟨0, 1, .admin, march⟩]
  invitations := []
  accounts u := if u = 0 then shut march else inUse

theorem promising_reached : ReflTransGen (fun s s' => ∃ e, Step fromMarch e s s') household promising := by
  refine .head ⟨_, .deactivate _ _ 0 rfl⟩ ?_
  exact .single ⟨_, .tick _ (march + 761 * day) (by decide)⟩

/-- The family keeps its owner until the purge, which hands it to the admin. -/
theorem owned_in_use_household : Covered emptied ∧
    ∃ s', purgeAccount fromMarch promising 0 = some s' ∧ s'.Owns 0 1 := by
  have hkept := owned_in_use fromMarch household_tables household_owned
  refine ⟨(hkept.1 emptied emptied_reached).1, ?_⟩
  rcases hpurged : purgeAccount fromMarch promising 0 with _ | s'
  · exact absurd hpurged (by decide)
  · refine ⟨s', rfl, ?_⟩
    have howns : promising.Owns 0 0 := ⟨⟨0, 0, .owner, march⟩, List.mem_cons_self, rfl, rfl, rfl⟩
    exact ((hkept.2 promising promising_reached 0 s' (.purge _ _ 0 hpurged) 0 howns _ (.refl _) 1).1).mpr rfl

/-- 0 purged, 2 has joined. -/
def orphaned : House ℕ ℕ ℕ where
  clock := march + 761 * day
  groups := [0]
  members := [⟨0, 2, .standard, march + 761 * day⟩, ⟨0, 1, .admin, march⟩]
  invitations := []
  accounts u := if u = 0 then { shut march with deletedAt := some (march + 761 * day) } else emptied.accounts u

theorem orphaned_reached : ReflTransGen (fun s s' => ∃ e, Step fromMarch e s s') household orphaned := by
  refine .trans (emptied_reached.lift id fun s s' ⟨e, hstep, _⟩ => ⟨e, hstep⟩) ?_
  refine .head ⟨_, .purge _ _ 0 rfl⟩ ?_
  exact .single ⟨_, .request _ _ (.accept 2 0) ⟨rfl, rfl⟩ trivial rfl⟩

/-- A member in use, and no owner: the invitation was accepted after the purge found no heir. -/
theorem no_one_owns : ¬∀ (s₀ s : House ℕ ℕ ℕ), Tables s₀ →
    (∀ g ∈ s₀.groups, ∃ u, s₀.Owns g u ∧ s₀.Active u) →
    ReflTransGen (fun s s' => ∃ e, Step fromMarch e s s') s₀ s → Covered s := by
  intro h
  obtain ⟨u, m, hm, -, -, howner⟩ := h household orphaned household_tables household_owned orphaned_reached 0
    List.mem_cons_self ⟨2, ⟨⟨0, 2, .standard, march + 761 * day⟩, List.mem_cons_self, rfl, rfl⟩, rfl, rfl⟩
  revert m
  decide

end Home.Groups.Succession
