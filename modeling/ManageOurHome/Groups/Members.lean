import ManageOurHome.Error
import ManageOurHome.Lib.ReadCommitted

/-! @src apps/api/src/groups/mod.rs | layer:model | family:groups

    The families, their members and the requests that change them, one transaction each. A role is read
    (`require_role`) in a statement of its own, and nothing holds the row until the `UPDATE` or the
    `DELETE` that follows. `G`, `U` and `T` are the types of family ids, user ids and invitation tokens.

        role of the actor ─▶ role of the target ─▶ (decision) ─▶ UPDATE / DELETE ─▶ commit
        transfer:  … ─▶ UPDATE actor 'admin' ─▶ UPDATE new_owner 'owner' ─▶ [DELETE actor] ─▶ commit -/

namespace Home.Groups

open FiniteMap ReadCommitted

inductive Role where
  | owner | admin | standard
  deriving DecidableEq, Repr

/-- The rows of `groups`, `group_members` and `invitations`, by their primary keys. -/
inductive Key (G U T : Type*) where
  | group (g : G)
  | member (g : G) (u : U)
  | invitation (token : T)
  deriving DecidableEq

inductive Row (G : Type*) where
  | group
  | member (role : Role)
  | invitation (group : G) (expiresAt : ℤ)
  deriving DecidableEq

/-- What else a transaction holds: the entry of a family in the index `one_owner_per_group`. -/
inductive Lock (G : Type*) where
  | oneOwner (g : G)
  deriving DecidableEq

def MAX_GROUPS_PER_USER : ℕ := 10

inductive Request (G U T : Type*) where
  | create (actor : U) (g : G)
  | accept (actor : U) (token : T)
  /-- `role` is the role named, none when there is no such role. -/
  | changeRole (actor : U) (g : G) (target : U) (role : Option Role)
  | remove (actor : U) (g : G) (target : U)
  | leave (actor : U) (g : G) (newOwner : Option U)
  | transfer (actor : U) (g : G) (newOwner : U)
  | delete (actor : U) (g : G)
  deriving DecidableEq

variable {G U T : Type*}

/-- The user the request is made by. -/
def Request.actor : Request G U T → U
  | .create actor _ | .accept actor _ | .changeRole actor _ _ _ | .remove actor _ _
  | .leave actor _ _ | .transfer actor _ _ | .delete actor _ => actor

/-- What a role may be changed into: `owner` is not among them. -/
inductive Grant where
  | admin | standard
  deriving DecidableEq, Repr

def Grant.role : Grant → Role
  | .admin => .admin
  | .standard => .standard

/-- What a member is about to undergo: a new role, or none any more. -/
inductive Deed where
  | role (grant : Grant)
  | removal
  deriving DecidableEq, Repr

/-- Where a transaction is, with the variables it holds there. In a transfer, `leaves` says whether the
    old owner leaves the family once it is done. -/
inductive Pc (G U T : Type*) where
  | opened (r : Request G U T)
  | creating (actor : U) (g : G)
  | indexing (actor : U) (g : G)
  | founding (actor : U) (g : G)
  | found (actor : U) (token : T) (g : G)
  | held (actor : U) (token : T) (g : G) (expiresAt : ℤ)
  | consuming (actor : U) (token : T) (g : G)
  | joining (actor : U) (g : G)
  | judging (actor : U) (g : G) (target : U) (deed : Deed) (actorRole : Role)
  | acting (actor : U) (g : G) (target : U) (deed : Deed)
  | counting (actor : U) (g : G) (newOwner : Option U) (role : Role)
  | succeeding (actor : U) (g : G) (newOwner : U) (leaves : Bool)
  | demoting (actor : U) (g : G) (newOwner : U) (leaves : Bool)
  | demoted (actor : U) (g : G) (newOwner : U) (leaves : Bool)
  | promoting (actor : U) (g : G) (newOwner : U) (leaves : Bool)
  | leaving (actor : U) (g : G)
  | deleting (actor : U) (g : G)
  | refused (actor : U) (e : AppError)
  | failed (actor : U)
  | done (actor : U)

/-- The user a transaction runs for. -/
def Pc.actor : Pc G U T → U
  | .opened r => r.actor
  | .creating actor _ | .indexing actor _ | .founding actor _ | .found actor _ _ | .held actor _ _ _
  | .consuming actor _ _ | .joining actor _ | .judging actor _ _ _ _ | .acting actor _ _ _
  | .counting actor _ _ _ | .succeeding actor _ _ _ | .demoting actor _ _ _ | .demoted actor _ _ _
  | .promoting actor _ _ _ | .leaving actor _ | .deleting actor _ | .refused actor _ | .failed actor
  | .done actor => actor

variable [DecidableEq G] [DecidableEq U] [DecidableEq T]

/-- `SELECT role FROM group_members WHERE group_id = … AND user_id = …`. -/
def role (rows : FMap (Key G U T) (Row G)) (g : G) (u : U) : Option Role :=
  match rows.get (.member g u) with
  | some (.member r) => some r
  | _ => none

/-- `SELECT count(*) FROM group_members WHERE p`. -/
def countMembers (rows : FMap (Key G U T) (Row G)) (p : G → U → Bool) : ℕ :=
  (rows.filter fun k _ => match k with
    | .member g u => p g u
    | _ => false).size

/-- Whether another member of the family than `u` has the owner's entry in `one_owner_per_group`. -/
def ownedByAnother (rows : FMap (Key G U T) (Row G)) (g : G) (u : U) : Bool :=
  0 < (rows.filter fun k r => match k, r with
    | .member g' u', .member .owner => g' = g ∧ u' ≠ u
    | _, _ => false).size

/-- The owner can act on anyone but itself, an admin on standard members, a standard member on no
    one. -/
def actorCanActOn (actorRole targetRole : Role) : Bool :=
  if targetRole = .owner then false
  else match actorRole with
    | .owner => true
    | .admin => targetRole ≠ .admin
    | .standard => false

/-- The rows `ON DELETE CASCADE` takes with the family. -/
def ofGroup (g : G) : Key G U T → Row G → Bool
  | .group g', _ => g' = g
  | .member g' _, _ => g' = g
  | .invitation _, .invitation g' _ => g' = g
  | .invitation _, _ => false

/-- `DELETE FROM groups WHERE id = g`. -/
def deleteGroup (g : G) (rows : FMap (Key G U T) (Row G)) : FMap (Key G U T) (Option (Row G)) :=
  if (rows.get (.group g)).isSome then FMap.deleteWhere (ofGroup g) rows else FMap.empty

/-- `UPDATE group_members SET role = r WHERE group_id = g AND user_id = u`. -/
def updateRole (g : G) (u : U) (r : Role) : FMap (Key G U T) (Row G) → FMap (Key G U T) (Option (Row G)) :=
  FMap.updateAt (.member g u) (.member r)

/-- `DELETE FROM group_members WHERE group_id = g AND user_id = u`. -/
def deleteMember (g : G) (u : U) : FMap (Key G U T) (Row G) → FMap (Key G U T) (Option (Row G)) :=
  FMap.deleteWhere fun k _ => k = .member g u

/-- The requests, statement by statement. A commit is remembered by the user it was made for. -/
def code : Pc G U T → Stmt (Key G U T) (Row G) (Lock G) U (Pc G U T)
  | .opened (.create actor g) => .query fun rows =>
      if MAX_GROUPS_PER_USER ≤ countMembers rows (fun _ u => u = actor) then
        .refused actor (.Unprocessable "too_many_groups")
      else .creating actor g
  | .creating actor g => .write (FMap.insertAt (.group g) .group) fun rows =>
      if (rows.get (.group g)).isSome then .failed actor else .indexing actor g
  | .indexing actor g => .lock (.oneOwner g) (.founding actor g)
  | .founding actor g => .write
      (fun rows => if ownedByAnother rows g actor then FMap.empty
        else FMap.insertAt (.member g actor) (.member .owner) rows)
      fun rows =>
        if ownedByAnother rows g actor ∨ (rows.get (.member g actor)).isSome then .failed actor
        else .done actor
  -- looked up in a transaction of its own, which writes and holds nothing
  | .opened (.accept actor token) => .query fun rows =>
      match rows.get (.invitation token) with
      | some (.invitation g _) => .found actor token g
      | _ => .refused actor .NotFound
  | .found actor token g => .write (FMap.touch fun k _ => k = .invitation token) fun rows =>
      match rows.get (.invitation token) with
      | some (.invitation _ expiresAt) => .held actor token g expiresAt
      | _ => .refused actor .NotFound
  | .held actor token g expiresAt => .clock fun now =>
      if expiresAt < now then .refused actor .Gone else .consuming actor token g
  | .consuming actor token g => .write (FMap.deleteWhere fun k _ => k = .invitation token) fun _ =>
      .joining actor g
  | .joining actor g => .write
      (fun rows => if (rows.get (.group g)).isSome then
        FMap.insertAt (.member g actor) (.member .standard) rows else FMap.empty)
      -- a member of no family is refused by the foreign key
      fun rows => if (rows.get (.group g)).isSome then .done actor else .failed actor
  | .opened (.changeRole actor g target named) => .query fun rows =>
      match named with
      | some .admin => judge rows actor g target (.role .admin)
      | some .standard => judge rows actor g target (.role .standard)
      | _ => .refused actor (.BadRequest "invalid_role")
  | .opened (.remove actor g target) => .query fun rows => judge rows actor g target .removal
  | .judging actor g target deed actorRole => .query fun rows =>
      match role rows g target with
      | none => .refused actor .Forbidden
      | some targetRole =>
        if actorCanActOn actorRole targetRole then .acting actor g target deed
        else .refused actor .Forbidden
  | .acting actor g target (.role grant) => .write (updateRole g target grant.role) fun _ => .done actor
  | .acting actor g target .removal => .write (deleteMember g target) fun _ => .done actor
  | .opened (.leave actor g newOwner) => .query fun rows =>
      match role rows g actor with
      | none => .refused actor .Forbidden
      | some r => .counting actor g newOwner r
  | .counting actor g newOwner r => .query fun rows =>
      if countMembers rows (fun g' _ => g' = g) ≤ 1 then
        .refused actor (.Conflict "last_member_must_delete_group")
      else if r = .owner then
        match newOwner with
        | none => .refused actor (.Unprocessable "new_owner_id_required")
        | some b =>
          if b = actor then .refused actor (.Unprocessable "new_owner_id_required")
          else .succeeding actor g b true
      else .leaving actor g
  | .opened (.transfer actor g newOwner) => .query fun rows =>
      if role rows g actor ≠ some .owner then .refused actor .Forbidden
      else if newOwner = actor then .refused actor (.Unprocessable "cannot_transfer_to_self")
      else .succeeding actor g newOwner false
  | .succeeding actor g newOwner leaves => .query fun rows =>
      match role rows g newOwner with
      | none => .refused actor (if leaves then .Forbidden else .NotFound)
      | some _ => .demoting actor g newOwner leaves
  | .demoting actor g newOwner leaves => .write (updateRole g actor .admin) fun _ =>
      .demoted actor g newOwner leaves
  | .demoted actor g newOwner leaves => .lock (.oneOwner g) (.promoting actor g newOwner leaves)
  | .promoting actor g newOwner leaves => .write
      (fun rows => if ownedByAnother rows g newOwner then FMap.empty
        else updateRole g newOwner .owner rows)
      fun rows =>
        if ownedByAnother rows g newOwner ∧ (role rows g newOwner).isSome then .failed actor
        else if leaves then .leaving actor g else .done actor
  | .leaving actor g => .write (deleteMember g actor) fun _ => .done actor
  | .opened (.delete actor g) => .query fun rows =>
      if role rows g actor ≠ some .owner then .refused actor .Forbidden else .deleting actor g
  | .deleting actor g => .write (deleteGroup g) fun _ => .done actor
  | .refused _ _ => .rollback
  | .failed _ => .rollback
  | .done actor => .commit actor
where
  /-- `change_role` and `remove_member`, the actor's role read. -/
  judge (rows : FMap (Key G U T) (Row G)) (actor : U) (g : G) (target : U) (deed : Deed) : Pc G U T :=
    match role rows g actor with
    | none => .refused actor .Forbidden
    | some actorRole => .judging actor g target deed actorRole

/-- Any request of any user. -/
inductive Starts : Pc G U T → Prop where
  | request (r : Request G U T) : Starts (.opened r)

end Home.Groups
