import Mathlib.Data.List.MinMax
import Mathlib.Data.Prod.Lex
import ManageOurHome.Account.PurgeClock
import ManageOurHome.Groups.Members

/-! @src apps/api/src/groups/succession.rs, apps/api/src/groups/mod.rs, apps/api/src/jobs/account_purge.rs, apps/api/src/user_admin/admin.rs |
    layer:model | family:succession

    Who owns a family when nobody chose to. The requests are taken one after the other, each a function of the
    tables, accounts included.

        purge of the owner ─▶ successor ─▶ owner        nobody eligible ─▶ no owner
        no owner ─▶ a member reactivated ─▶ successor    no owner ─▶ designated by the superadmin -/

namespace Home.Groups.Succession

open Account (Chrono PurgeClock)

/-- A row of `group_members`. -/
structure Membership (G U : Type) where
  group : G
  user : U
  role : Role
  joinedAt : ℤ
  deriving DecidableEq

structure Invitation (G U T : Type) where
  token : T
  group : G
  createdBy : U
  expiresAt : ℤ
  deriving DecidableEq

/-- The clock and the tables; the rows of `groups` by their ids, those of `users` as far as the purge reads them. -/
structure House (G U T : Type) where
  clock : ℤ
  groups : List G
  members : List (Membership G U)
  invitations : List (Invitation G U T)
  accounts : U → PurgeClock

def INVITATION_TTL_DAYS : ℤ := 7

variable {G U T : Type}

/-! ### The order of succession -/

/-- A member of a family as `successor` sees it. -/
structure RemainingMember (U : Type) where
  userId : U
  isAdmin : Bool
  joinedAt : ℤ
  deactivated : Bool
  pendingDeletion : Bool
  deriving DecidableEq, Repr

/-- The key the heir is the least of. -/
def RemainingMember.rank (m : RemainingMember U) : Lex (Bool × Lex (Bool × Lex (ℤ × U))) :=
  toLex (m.pendingDeletion, toLex (!m.isAdmin, toLex (m.joinedAt, m.userId)))

/-- Why the superadmin cannot designate a member. -/
inductive DesignationRefusal where
  | GroupHasOwner | NotAMember | NotActive
  deriving DecidableEq, Repr

def checkDesignation (hasOwner : Bool) (target : Option (RemainingMember U)) : Except DesignationRefusal Unit :=
  if hasOwner then .error .GroupHasOwner
  else match target with
    | none => .error .NotAMember
    | some m => if m.deactivated ∨ m.pendingDeletion then .error .NotActive else .ok ()

section Order

variable [LinearOrder U]

/-- Ranks compare as numbers do, computably. -/
local instance rankOrder : Preorder ℤ := Int.instLinearOrder.toPreorder

def successor (remaining : List (RemainingMember U)) : Option U :=
  ((remaining.filter fun m => !m.deactivated).argmin RemainingMember.rank).map (·.userId)

def heirIfOwnerless (hasOwner : Bool) (members : List (RemainingMember U)) : Option U :=
  if hasOwner then none else successor members

end Order

/-! ### Statements -/

variable [DecidableEq G]

/-- The memberships of a family. -/
def rowsOf (members : List (Membership G U)) (g : G) : List (Membership G U) :=
  members.filter fun m => m.group = g

/-- A membership joined to its account. -/
def remaining (accounts : U → PurgeClock) (m : Membership G U) : RemainingMember U where
  userId := m.user
  isAdmin := m.role = .admin
  joinedAt := m.joinedAt
  deactivated := (accounts m.user).deactivatedAt.isSome
  pendingDeletion := (accounts m.user).deletionRequestedAt.isSome

/-- Whether a family has an owner, and its members. -/
def lockMembers (s : House G U T) (g : G) : Bool × List (RemainingMember U) :=
  let rows := rowsOf s.members g
  (rows.any fun r => r.role = .owner, rows.map (remaining s.accounts))

/-- `DELETE FROM groups WHERE id = g`, and what goes with it. -/
def House.deleteGroup (s : House G U T) (g : G) : House G U T :=
  { s with
    groups := s.groups.filter (· ≠ g)
    members := s.members.filter fun m => m.group ≠ g
    invitations := s.invitations.filter fun i => i.group ≠ g }

/-- Deletes a family the purge left with no member. -/
def deleteIfAbandoned (s : House G U T) (g : G) : House G U T :=
  if (rowsOf s.members g).isEmpty then s.deleteGroup g else s

variable [LinearOrder U]

/-- `UPDATE group_members SET role = role WHERE group_id = g AND user_id = u`. -/
def House.updateRole (s : House G U T) (g : G) (u : U) (role : Role) : House G U T :=
  { s with members := s.members.map fun m => if m.group = g ∧ m.user = u then { m with role := role } else m }

/-- `DELETE FROM group_members WHERE group_id = g AND user_id = u`. -/
def House.deleteMember (s : House G U T) (g : G) (u : U) : House G U T :=
  { s with members := s.members.filter fun m => ¬(m.group = g ∧ m.user = u) }

/-- `SELECT role FROM group_members WHERE group_id = g AND user_id = u`. -/
def requireRole (s : House G U T) (g : G) (u : U) : Except AppError Role :=
  match s.members.find? fun m => m.group = g ∧ m.user = u with
  | some m => .ok m.role
  | none => .error .Forbidden

def stampInheritance (s : House G U T) (g : G) (u : U) : House G U T := s.updateRole g u .owner

/-- Hands a family without an owner to its heir, if there is one. -/
def assignHeir (s : House G U T) (g : G) : House G U T :=
  let (hasOwner, members) := lockMembers s g
  match heirIfOwnerless hasOwner members with
  | none => s
  | some heir => stampInheritance s g heir

/-- The old owner becomes an admin, then the new one owner. -/
def performOwnershipTransfer (s : House G U T) (g : G) (oldOwner newOwner : U) : House G U T :=
  (s.updateRole g oldOwner .admin).updateRole g newOwner .owner

/-! ### Requests -/

def createGroup (s : House G U T) (actor : U) (g : G) : Except AppError (House G U T) :=
  if MAX_GROUPS_PER_USER ≤ (s.members.filter fun m => m.user = actor).length then
    .error (.Unprocessable "too_many_groups")
  else .ok { s with groups := g :: s.groups, members := ⟨g, actor, .owner, s.clock⟩ :: s.members }

def createInvitation (s : House G U T) (actor : U) (g : G) (token : T) : Except AppError (House G U T) := do
  let role ← requireRole s g actor
  if role ≠ .owner ∧ role ≠ .admin then throw .Forbidden
  return { s with invitations := ⟨token, g, actor, s.clock + INVITATION_TTL_DAYS * day⟩ :: s.invitations }

/-- A member keeps the role it has: `ON CONFLICT DO NOTHING`. -/
def acceptInvitation [DecidableEq T] (s : House G U T) (actor : U) (token : T) : Except AppError (House G U T) :=
  match s.invitations.find? fun i => i.token = token with
  | none => .error .NotFound
  | some invitation =>
    if invitation.expiresAt < s.clock then .error .Gone
    else .ok { s with
      invitations := s.invitations.filter fun i => i.token ≠ token
      members := if s.members.any fun m => m.group = invitation.group ∧ m.user = actor then s.members
        else ⟨invitation.group, actor, .standard, s.clock⟩ :: s.members }

/-- `named` is the role asked for, none when there is no such role. -/
def changeRole (s : House G U T) (actor : U) (g : G) (target : U) (named : Option Role) :
    Except AppError (House G U T) := do
  let role ← match named with
    | some .admin => pure Role.admin
    | some .standard => pure Role.standard
    | _ => throw (.BadRequest "invalid_role")
  let actorRole ← requireRole s g actor
  let targetRole ← requireRole s g target
  if !actorCanActOn actorRole targetRole then throw .Forbidden
  return s.updateRole g target role

def removeMember (s : House G U T) (actor : U) (g : G) (target : U) : Except AppError (House G U T) := do
  let actorRole ← requireRole s g actor
  let targetRole ← requireRole s g target
  if !actorCanActOn actorRole targetRole then throw .Forbidden
  return s.deleteMember g target

def leaveGroup (s : House G U T) (actor : U) (g : G) (newOwner : Option U) : Except AppError (House G U T) := do
  let role ← requireRole s g actor
  if (rowsOf s.members g).length ≤ 1 then throw (.Conflict "last_member_must_delete_group")
  if role = .owner then
    match newOwner with
    | none => throw (.Unprocessable "new_owner_id_required")
    | some newOwner =>
      if newOwner = actor then throw (.Unprocessable "new_owner_id_required")
      let _ ← requireRole s g newOwner
      return (performOwnershipTransfer s g actor newOwner).deleteMember g actor
  else return s.deleteMember g actor

def transferOwnership (s : House G U T) (actor : U) (g : G) (newOwner : U) : Except AppError (House G U T) := do
  let role ← requireRole s g actor
  if role ≠ .owner then throw .Forbidden
  if newOwner = actor then throw (.Unprocessable "cannot_transfer_to_self")
  if !s.members.any fun m => m.group = g ∧ m.user = newOwner then throw .NotFound
  return performOwnershipTransfer s g actor newOwner

def deleteGroup (s : House G U T) (actor : U) (g : G) : Except AppError (House G U T) := do
  let role ← requireRole s g actor
  if role ≠ .owner then throw .Forbidden
  return s.deleteGroup g

/-- What a member asks. -/
def handle [DecidableEq T] (s : House G U T) : Request G U T → Except AppError (House G U T)
  | .create actor g => createGroup s actor g
  | .accept actor token => acceptInvitation s actor token
  | .changeRole actor g target named => changeRole s actor g target named
  | .remove actor g target => removeMember s actor g target
  | .leave actor g newOwner => leaveGroup s actor g newOwner
  | .transfer actor g newOwner => transferOwnership s actor g newOwner
  | .delete actor g => deleteGroup s actor g

/-! ### The superadmin and the purge -/

/-- `UPDATE users … WHERE id = u`. -/
def House.updateAccount (s : House G U T) (u : U) (row : PurgeClock) : House G U T :=
  { s with accounts := fun v => if v = u then row else s.accounts v }

def deactivateUser (s : House G U T) (u : U) : Except AppError (House G U T) := do
  return s.updateAccount u (← Account.deactivateUser s.clock (s.accounts u))

/-- The families a user is a member of and which have no owner. -/
def ownerless (s : House G U T) (u : U) : List G :=
  (s.members.filter fun m => m.user = u ∧
    ¬s.members.any fun o => o.group = m.group ∧ o.role = .owner).map (·.group)

def reactivateUser (s : House G U T) (u : U) : Except AppError (House G U T) := do
  let s := s.updateAccount u (← Account.reactivateUser (s.accounts u))
  return (ownerless s u).foldl assignHeir s

def designateOwner (s : House G U T) (g : G) (u : U) : Except AppError (House G U T) :=
  if g ∉ s.groups then .error .NotFound
  else
    let (hasOwner, members) := lockMembers s g
    match checkDesignation hasOwner (members.find? fun m => m.userId = u) with
    | .error .GroupHasOwner => .error (.Conflict "group_has_owner")
    | .error .NotAMember => .error (.Unprocessable "not_a_member")
    | .error .NotActive => .error (.Unprocessable "owner_must_be_active")
    | .ok () => .ok (stampInheritance s g u)

/-- The purge of one account, if it is due: its memberships go, the families it owned pass to their heirs, those
    left with no member are deleted. -/
def purgeAccount (chrono : Chrono) (s : House G U T) (u : U) : Option (House G U T) :=
  (Account.purgeAccount chrono s.clock (s.accounts u)).map fun row =>
    let memberships := s.members.filter fun m => m.user = u
    let s := { s with members := s.members.filter fun m => m.user ≠ u }
    let s := ((memberships.filter fun m => m.role = .owner).map (·.group)).foldl assignHeir s
    let s := (memberships.map (·.group)).foldl deleteIfAbandoned s
    { s with invitations := s.invitations.filter fun i => i.createdBy ≠ u }.updateAccount u row

end Home.Groups.Succession
