import Mathlib.Logic.Function.Basic
import ManageOurHome.Lib.Broadcast

/-! @src apps/api/src/messagerie/mod.rs, apps/api/src/messagerie/ws.rs, apps/api/src/messagerie/messages.rs | layer:model |
    family:messagerie

    The live thread. A message's transaction announces its change at its commit, to every replica that listens. A
    replica's listener handles what it was sent, one notification at a time: for a group somebody follows it reads the
    message back, and pushes it to the group's sockets. A listening connection re-established closes them all.

        commit ─▶ inbox ─▶ loading ─▶ dispatching ─▶ receivers ─▶ sockets
                    └ skip     └ gone · failed   └ nobody left -/

namespace Home.MessageHub

open Broadcast

/-- What changed. -/
inductive Change where
  | Created | Updated | Deleted
  deriving DecidableEq

/-- The payload of a `NOTIFY`: identifiers only. -/
structure Notification (Γ M : Type) where
  groupId : Γ
  change : Change
  messageId : M

/-- A message read back; `B` is the rest of it. -/
structure MessageResponse (Γ M B : Type) where
  id : M
  groupId : Γ
  body : B

inductive MessageEvent (Γ M B : Type) where
  | Created (message : MessageResponse Γ M B)
  | Updated (message : MessageResponse Γ M B)
  | Deleted (id : M)

def HUB_CHANNEL_CAPACITY : ℕ := 100

variable {Γ M B : Type}

/-- `load_message`, when the database answers: read under the group's scope. -/
def loadMessage [DecidableEq Γ] (rows : M → Option (MessageResponse Γ M B)) (groupId : Γ) (messageId : M) :
    Option (MessageResponse Γ M B) :=
  (rows messageId).filter fun message => message.groupId = groupId

/-- The event of a message read back. -/
def MessageEvent.of (change : Change) (message : MessageResponse Γ M B) : MessageEvent Γ M B :=
  match change with
  | .Created => .Created message
  | _ => .Updated message

/-- Where `handle` is, with the place of the change in the order of commits. -/
inductive Task (Γ M B : Type) where
  | idle
  | loading (place : ℕ) (n : Notification Γ M)
  | dispatching (place : ℕ) (groupId : Γ) (event : MessageEvent Γ M B)

/-- A `MessageHub` and its listener: whether it has listened yet, whether its connection is up, whether `close_all` comes
    next; what it was sent; each group's channel, by number; and the changes whose read-back failed. -/
structure Replica (Γ M B : Type) where
  ready : Bool
  connected : Bool
  closing : Bool
  inbox : List (ℕ × Notification Γ M)
  task : Task Γ M B
  channels : Γ → Option ℕ
  next : ℕ
  failed : List ℕ

/-- A `handle_socket`: the commits before it subscribed, the channel, the receiver until it is dropped, the events sent to
    the client, and whether the cleanup has run. -/
structure Socket (R Γ M B : Type) where
  replica : R
  groupId : Γ
  since : ℕ
  channel : ℕ
  receiver : Option (Receiver (ℕ × MessageEvent Γ M B))
  sent : List (ℕ × MessageEvent Γ M B)
  cleaned : Bool

/-- The changes in the order of their commits, the messages, the replicas and the sockets. -/
structure State (R S Γ M B : Type) where
  committed : List (Notification Γ M)
  rows : M → Option (MessageResponse Γ M B)
  replicas : R → Replica Γ M B
  sockets : S → Option (Socket R Γ M B)

/-- A message's transaction: what it announces, and the messages it leaves. -/
inductive Writes [DecidableEq M] (rows : M → Option (MessageResponse Γ M B)) :
    Notification Γ M → (M → Option (MessageResponse Γ M B)) → Prop where
  | created (message : MessageResponse Γ M B) (h : rows message.id = none) :
      Writes rows ⟨message.groupId, .Created, message.id⟩ (Function.update rows message.id (some message))
  | updated (message : MessageResponse Γ M B) (body : B) (h : rows message.id = some message) :
      Writes rows ⟨message.groupId, .Updated, message.id⟩
        (Function.update rows message.id (some { message with body := body }))
  | deleted (message : MessageResponse Γ M B) (h : rows message.id = some message) :
      Writes rows ⟨message.groupId, .Deleted, message.id⟩ (Function.update rows message.id none)

variable {R S : Type}

/-- Postgres delivers at the commit, to a connection that listens. -/
def Replica.notified (r : Replica Γ M B) (place : ℕ) (n : Notification Γ M) : Replica Γ M B :=
  if r.connected then { r with inbox := r.inbox ++ [(place, n)] } else r

/-- An event sent on a channel. -/
def Socket.push [DecidableEq R] (r : R) (channel : ℕ) (e : ℕ × MessageEvent Γ M B) (k : Socket R Γ M B) : Socket R Γ M B :=
  if k.replica = r ∧ k.channel = channel then
    { k with receiver := k.receiver.map fun rc => rc.push (places HUB_CHANNEL_CAPACITY) e }
  else k

def State.setReplica [DecidableEq R] (s : State R S Γ M B) (r : R) (replica : Replica Γ M B) : State R S Γ M B :=
  { s with replicas := Function.update s.replicas r replica }

def State.setSocket [DecidableEq S] (s : State R S Γ M B) (i : S) (k : Socket R Γ M B) : State R S Γ M B :=
  { s with sockets := Function.update s.sockets i (some k) }

section

variable {s : State R S Γ M B} {r r' : R} {i j : S} {replica : Replica Γ M B} {k : Socket R Γ M B}

@[simp] theorem State.setReplica_self [DecidableEq R] : (s.setReplica r replica).replicas r = replica := Function.update_self _ _ _

theorem State.setReplica_of_ne [DecidableEq R] (h : r' ≠ r) : (s.setReplica r replica).replicas r' = s.replicas r' :=
  Function.update_of_ne h _ _

@[simp] theorem State.setSocket_self [DecidableEq S] : (s.setSocket i k).sockets i = some k := Function.update_self _ _ _

theorem State.setSocket_of_ne [DecidableEq S] (h : j ≠ i) : (s.setSocket i k).sockets j = s.sockets j := Function.update_of_ne h _ _

end

/-- `receiver_count() == 0` -/
def State.NoReceiver (s : State R S Γ M B) (r : R) (channel : ℕ) : Prop :=
  ∀ i k, s.sockets i = some k → k.replica = r → k.channel = channel → k.receiver = none

variable [DecidableEq Γ] [DecidableEq M] [DecidableEq R] [DecidableEq S]

inductive Step : State R S Γ M B → State R S Γ M B → Prop where
  | commit (s : State R S Γ M B) (n : Notification Γ M) (rows : M → Option (MessageResponse Γ M B)) (h : Writes s.rows n rows) :
      Step s { s with
        committed := s.committed ++ [n]
        rows := rows
        replicas := fun r => (s.replicas r).notified s.committed.length n }
  /-- The connection is lost; of what was sent, some had arrived. -/
  | lose (s : State R S Γ M B) (r : R) (arrived : List (ℕ × Notification Γ M)) (h : arrived <+: (s.replicas r).inbox) :
      Step s (s.setReplica r { s.replicas r with connected := false, inbox := arrived })
  /-- `connect_listener`, or sqlx's own: `close_all` follows, but for the first. -/
  | connect (s : State R S Γ M B) (r : R) (h : (s.replicas r).connected = false) (htask : (s.replicas r).task = .idle)
      (hclosing : (s.replicas r).closing = false) :
      Step s (s.setReplica r { s.replicas r with
        ready := true, connected := true, closing := (s.replicas r).ready, inbox := [] })
  | closeAll (s : State R S Γ M B) (r : R) (h : (s.replicas r).closing = true) :
      Step s (s.setReplica r { s.replicas r with closing := false, channels := fun _ => none })
  /-- `handle`: nobody follows the group here. -/
  | skip (s : State R S Γ M B) (r : R) (p : ℕ) (n : Notification Γ M) (inbox : List (ℕ × Notification Γ M))
      (htask : (s.replicas r).task = .idle) (hclosing : (s.replicas r).closing = false)
      (h : (s.replicas r).inbox = (p, n) :: inbox) (hnone : (s.replicas r).channels n.groupId = none) :
      Step s (s.setReplica r { s.replicas r with inbox := inbox })
  | takeDeleted (s : State R S Γ M B) (r : R) (p : ℕ) (n : Notification Γ M) (inbox : List (ℕ × Notification Γ M)) (c : ℕ)
      (htask : (s.replicas r).task = .idle) (hclosing : (s.replicas r).closing = false)
      (h : (s.replicas r).inbox = (p, n) :: inbox) (hsome : (s.replicas r).channels n.groupId = some c)
      (hchange : n.change = .Deleted) :
      Step s (s.setReplica r { s.replicas r with
        inbox := inbox, task := .dispatching p n.groupId (.Deleted n.messageId) })
  | take (s : State R S Γ M B) (r : R) (p : ℕ) (n : Notification Γ M) (inbox : List (ℕ × Notification Γ M)) (c : ℕ)
      (htask : (s.replicas r).task = .idle) (hclosing : (s.replicas r).closing = false)
      (h : (s.replicas r).inbox = (p, n) :: inbox) (hsome : (s.replicas r).channels n.groupId = some c)
      (hchange : n.change ≠ .Deleted) :
      Step s (s.setReplica r { s.replicas r with inbox := inbox, task := .loading p n })
  | load (s : State R S Γ M B) (r : R) (p : ℕ) (n : Notification Γ M) (message : MessageResponse Γ M B)
      (htask : (s.replicas r).task = .loading p n) (h : loadMessage s.rows n.groupId n.messageId = some message) :
      Step s (s.setReplica r { s.replicas r with task := .dispatching p n.groupId (.of n.change message) })
  | loadGone (s : State R S Γ M B) (r : R) (p : ℕ) (n : Notification Γ M) (htask : (s.replicas r).task = .loading p n)
      (h : loadMessage s.rows n.groupId n.messageId = none) :
      Step s (s.setReplica r { s.replicas r with task := .idle })
  | loadFailed (s : State R S Γ M B) (r : R) (p : ℕ) (n : Notification Γ M) (htask : (s.replicas r).task = .loading p n) :
      Step s (s.setReplica r { s.replicas r with task := .idle, failed := p :: (s.replicas r).failed })
  | dispatch (s : State R S Γ M B) (r : R) (p : ℕ) (groupId : Γ) (event : MessageEvent Γ M B) (c : ℕ)
      (htask : (s.replicas r).task = .dispatching p groupId event) (h : (s.replicas r).channels groupId = some c) :
      Step s { s.setReplica r { s.replicas r with task := .idle } with
        sockets := fun i => (s.sockets i).map (Socket.push r c (p, event)) }
  | dispatchNone (s : State R S Γ M B) (r : R) (p : ℕ) (groupId : Γ) (event : MessageEvent Γ M B)
      (htask : (s.replicas r).task = .dispatching p groupId event) (h : (s.replicas r).channels groupId = none) :
      Step s (s.setReplica r { s.replicas r with task := .idle })
  /-- `subscribe`, on a replica that has listened: `ensure_listening`. -/
  | subscribe (s : State R S Γ M B) (i : S) (r : R) (groupId : Γ) (c : ℕ) (h : s.sockets i = none)
      (hready : (s.replicas r).ready = true) (hsome : (s.replicas r).channels groupId = some c) :
      Step s (s.setSocket i ⟨r, groupId, s.committed.length, c, some .empty, [], false⟩)
  | subscribeFirst (s : State R S Γ M B) (i : S) (r : R) (groupId : Γ) (h : s.sockets i = none)
      (hready : (s.replicas r).ready = true) (hnone : (s.replicas r).channels groupId = none) :
      Step s ((s.setReplica r { s.replicas r with
          channels := Function.update (s.replicas r).channels groupId (some (s.replicas r).next)
          next := (s.replicas r).next + 1 }).setSocket i
        ⟨r, groupId, s.committed.length, (s.replicas r).next, some .empty, [], false⟩)
  | receive (s : State R S Γ M B) (i : S) (k : Socket R Γ M B) (e : ℕ × MessageEvent Γ M B)
      (queue : List (ℕ × MessageEvent Γ M B)) (h : s.sockets i = some k) (hreceiver : k.receiver = some ⟨e :: queue, false⟩) :
      Step s (s.setSocket i { k with receiver := some ⟨queue, false⟩, sent := k.sent ++ [e] })
  /-- `RecvError::Lagged` -/
  | lagged (s : State R S Γ M B) (i : S) (k : Socket R Γ M B) (queue : List (ℕ × MessageEvent Γ M B))
      (h : s.sockets i = some k) (hreceiver : k.receiver = some ⟨queue, true⟩) :
      Step s (s.setSocket i { k with receiver := some ⟨queue, false⟩ })
  /-- `RecvError::Closed`, a close frame, an error, a session or a membership ended, the process stopping. -/
  | leave (s : State R S Γ M B) (i : S) (k : Socket R Γ M B) (h : s.sockets i = some k) :
      Step s (s.setSocket i { k with receiver := none })
  /-- `cleanup_if_empty` -/
  | cleanup (s : State R S Γ M B) (i : S) (k : Socket R Γ M B) (c : ℕ) (h : s.sockets i = some k)
      (hdropped : k.receiver = none) (hsome : (s.replicas k.replica).channels k.groupId = some c)
      (hempty : s.NoReceiver k.replica c) :
      Step s ((s.setReplica k.replica { s.replicas k.replica with
          channels := Function.update (s.replicas k.replica).channels k.groupId none }).setSocket i
        { k with cleaned := true })
  | cleanupKept (s : State R S Γ M B) (i : S) (k : Socket R Γ M B) (h : s.sockets i = some k)
      (hdropped : k.receiver = none)
      (hkept : ∀ c, (s.replicas k.replica).channels k.groupId = some c → ¬s.NoReceiver k.replica c) :
      Step s (s.setSocket i { k with cleaned := true })

/-- Nothing written, nobody listening. -/
def State.start : State R S Γ M B where
  committed := []
  rows _ := none
  replicas _ := ⟨false, false, false, [], .idle, fun _ => none, 0, []⟩
  sockets _ := none

end Home.MessageHub
