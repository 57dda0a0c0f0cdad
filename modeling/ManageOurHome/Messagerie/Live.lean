import Mathlib.Logic.Relation
import ManageOurHome.Messagerie.Hub

/-! @src apps/api/src/messagerie/mod.rs, apps/api/src/messagerie/ws.rs | layer:proof | family:messagerie

    The live thread drops no change unseen. What a socket that listens has to be sent is covered: by an event it was sent
    or has in its receiver, for the change or a later one, or by what its replica was sent and has not handled. A change
    whose message is gone is covered by the deletion; what a lagging receiver loses, by what it keeps.

        change p  ─▶  p still to handle  |  an event for q ≥ p  |  the deletion, still to handle -/

namespace Home.MessageHub

open Broadcast Relation

variable {R S Γ M B : Type} {committed : List (Notification Γ M)} {n : Notification Γ M}
  {groupId : Γ} {todo : List ℕ} {events events' : List (ℕ × MessageEvent Γ M B)} {p p₀ : ℕ}

/-! ### What is claimed -/

/-- The event is one for this change. -/
def Announces (n : Notification Γ M) : MessageEvent Γ M B → Prop
  | .Created message => n.change = .Created ∧ message.id = n.messageId ∧ message.groupId = n.groupId
  | .Updated message => n.change = .Updated ∧ message.id = n.messageId ∧ message.groupId = n.groupId
  | .Deleted id => n.change = .Deleted ∧ id = n.messageId

/-- An event for a change of the group. -/
def OfGroup (committed : List (Notification Γ M)) (groupId : Γ) (e : ℕ × MessageEvent Γ M B) : Prop :=
  ∃ n, committed[e.1]? = some n ∧ n.groupId = groupId ∧ Announces n e.2

/-- Nothing left of what it was sent. -/
structure Replica.Handled (r : Replica Γ M B) : Prop where
  inbox : r.inbox = []
  task : r.task = .idle
  closing : r.closing = false

/-- Its `recv` waits: nothing to receive, on a channel still there. -/
structure Socket.Drained (r : Replica Γ M B) (k : Socket R Γ M B) : Prop where
  receiver : k.receiver = some .empty
  channel : ∃ groupId, r.channels groupId = some k.channel

/-- Where its replica has handled what it was sent and it has drained its receiver, a socket was sent an event for each
    change of its group `told` requires, or for a later one, of those since it subscribed. -/
def Follows (told : Replica Γ M B → ℕ → Prop) (s : State R S Γ M B) : Prop :=
  ∀ i k, s.sockets i = some k → k.Drained (s.replicas k.replica) → (s.replicas k.replica).Handled →
    ∀ p n, k.since ≤ p → s.committed[p]? = some n → n.groupId = k.groupId → told (s.replicas k.replica) p →
      ∃ e ∈ k.sent, p ≤ e.1

/-- FOLLOWED: with no event of another group, and no channel without a receiver once every cleanup has run. -/
structure Followed (told : Replica Γ M B → ℕ → Prop) (s : State R S Γ M B) : Prop where
  follows : Follows told s
  own : ∀ i k, s.sockets i = some k → ∀ e ∈ k.sent, OfGroup s.committed k.groupId e
  tended : (∀ i k, s.sockets i = some k → k.receiver = none → k.cleaned = true) →
    ∀ r groupId c, (s.replicas r).channels groupId = some c →
      ∃ i k, s.sockets i = some k ∧ k.replica = r ∧ k.groupId = groupId ∧ k.channel = c ∧ k.receiver.isSome

/-- Its connection is up, and the change's read-back did not fail. -/
structure Replica.Told (r : Replica Γ M B) (p : ℕ) : Prop where
  connected : r.connected = true
  read : p ∉ r.failed

/-! ### What covers a change -/

def Task.places : Task Γ M B → List ℕ
  | .idle => []
  | .loading p _ | .dispatching p _ _ => [p]

/-- What a replica was sent and has not handled. -/
def Replica.pending (r : Replica Γ M B) : List ℕ := r.task.places ++ r.inbox.map Prod.fst

/-- An event for it or for a later change; or it is still to handle, or its message's deletion is. -/
inductive Covered (committed : List (Notification Γ M)) (groupId : Γ) (todo : List ℕ)
    (events : List (ℕ × MessageEvent Γ M B)) (p : ℕ) : Prop where
  | event (e : ℕ × MessageEvent Γ M B) (h : e ∈ events) (hle : p ≤ e.1)
  | left (h : p ∈ todo)
  | deletion (d : ℕ) (h : d ∈ todo) (hlt : p < d) (m : M) (hd : committed[d]? = some ⟨groupId, .Deleted, m⟩)

/-- One less to handle, that was neither it nor a deletion in the group. -/
theorem Covered.tail (h : Covered committed groupId (p₀ :: todo) events p) (hne : p ≠ p₀)
    (hdeletion : ∀ m, committed[p₀]? ≠ some ⟨groupId, .Deleted, m⟩) : Covered committed groupId todo events p := by
  cases h with
  | event e h hle => exact .event e h hle
  | left h =>
    rcases List.mem_cons.mp h with heq | h
    · exact absurd heq hne
    · exact .left h
  | deletion d h hlt m hd =>
    rcases List.mem_cons.mp h with rfl | h
    · exact absurd hd (hdeletion m)
    · exact .deletion d h hlt m hd

/-- An event for what was the first to handle, and so for what comes before it. -/
theorem Covered.sent (h : Covered committed groupId (p₀ :: todo) events p) (hafter : ∀ d ∈ todo, p₀ < d)
    (hkept : ∀ e ∈ events, e ∈ events' ∨ e.1 ≤ p₀) {event : MessageEvent Γ M B} (hsent : (p₀, event) ∈ events') :
    Covered committed groupId todo events' p := by
  cases h with
  | event e h hle =>
    rcases hkept e h with h | h
    · exact .event e h hle
    · exact .event _ hsent (hle.trans h)
  | left h =>
    rcases List.mem_cons.mp h with rfl | h
    · exact .event _ hsent le_rfl
    · exact .left h
  | deletion d h hlt m hd =>
    rcases List.mem_cons.mp h with rfl | h
    · exact .event _ hsent hlt.le
    · exact .deletion d h hlt m hd

/-- What was committed stays where it was, and one change comes after. -/
theorem getElem?_commit {p : ℕ} {n' : Notification Γ M} : (committed ++ [n])[p]? = some n' ↔
    committed[p]? = some n' ∨ p = committed.length ∧ n = n' := by
  constructor
  · intro hn'
    rcases lt_or_ge p committed.length with hlt | hge
    · rw [List.getElem?_append_left hlt] at hn'
      exact .inl hn'
    · have hlt := (List.getElem?_eq_some_iff.mp hn').1
      rw [List.length_append, List.length_singleton] at hlt
      obtain rfl : p = committed.length := by omega
      rw [List.getElem?_concat_length] at hn'
      exact .inr ⟨rfl, Option.some.inj hn'⟩
  · rintro (hn' | ⟨rfl, rfl⟩)
    · rw [List.getElem?_append_left (List.getElem?_eq_some_iff.mp hn').1]
      exact hn'
    · exact List.getElem?_concat_length

/-- A change more, for its part still to handle. -/
theorem Covered.commit (h : Covered committed groupId todo events p) :
    Covered (committed ++ [n]) groupId (todo ++ [committed.length]) events p := by
  cases h with
  | event e h hle => exact .event e h hle
  | left h => exact .left (List.mem_append_left _ h)
  | deletion d h hlt m hd =>
    exact .deletion d (List.mem_append_left _ h) hlt m (getElem?_commit.mpr (.inl hd))

theorem OfGroup.commit {e : ℕ × MessageEvent Γ M B} (h : OfGroup committed groupId e) :
    OfGroup (committed ++ [n]) groupId e := by
  obtain ⟨n', hn', hrest⟩ := h
  exact ⟨n', getElem?_commit.mpr (.inl hn'), hrest⟩

/-! ### What a state keeps -/

/-- Each row under its id; and a message written is there, or its deletion is. -/
structure Rows (s : State R S Γ M B) : Prop where
  id : ∀ m message, s.rows m = some message → message.id = m
  kept : ∀ (p : ℕ) n, s.committed[p]? = some n → n.change ≠ .Deleted →
    (∃ message, s.rows n.messageId = some message ∧ message.groupId = n.groupId) ∨
      ∃ d, p < d ∧ s.committed[d]? = some ⟨n.groupId, .Deleted, n.messageId⟩

/-- What a replica was sent, in order, and its channels, each of one group. -/
structure Replica.Sound (committed : List (Notification Γ M)) (r : Replica Γ M B) : Prop where
  known : ∀ e ∈ r.inbox, committed[e.1]? = some e.2
  loading : ∀ p n, r.task = .loading p n → committed[p]? = some n ∧ n.change ≠ .Deleted
  dispatching : ∀ p groupId event, r.task = .dispatching p groupId event → OfGroup committed groupId (p, event)
  ascending : r.pending.Pairwise (· < ·)
  fresh : ∀ groupId c, r.channels groupId = some c → c < r.next
  apart : ∀ groupId groupId' c, r.channels groupId = some c → r.channels groupId' = some c → groupId = groupId'
  failed : ∀ p ∈ r.failed, ∃ n, committed[p]? = some n ∧ n.change ≠ .Deleted

/-- What a socket was sent, and what covers its group's changes. -/
structure Socket.Sound (committed : List (Notification Γ M)) (r : Replica Γ M B) (k : Socket R Γ M B) : Prop where
  ready : r.ready = true
  channel : k.channel < r.next
  own : ∀ groupId, r.channels groupId = some k.channel → groupId = k.groupId
  cleaned : k.cleaned = true → k.receiver = none
  sent : ∀ e ∈ k.sent, OfGroup committed k.groupId e
  queued : ∀ rc, k.receiver = some rc → ∀ e ∈ rc.queue, OfGroup committed k.groupId e ∧ ∀ p ∈ r.pending, e.1 < p
  covered : r.connected = true → r.closing = false → r.channels k.groupId = some k.channel →
    ∀ rc, k.receiver = some rc → ∀ p n, k.since ≤ p → committed[p]? = some n → n.groupId = k.groupId → p ∉ r.failed →
      Covered committed k.groupId r.pending (k.sent ++ rc.queue) p

/-- Somebody receives from the channel, or has a cleanup to run. -/
def State.Tended (s : State R S Γ M B) (r : R) (groupId : Γ) (c : ℕ) : Prop :=
  ∃ i k, s.sockets i = some k ∧ k.replica = r ∧ k.groupId = groupId ∧
    (k.receiver.isSome ∧ k.channel = c ∨ k.receiver = none ∧ k.cleaned = false)

structure Sound (s : State R S Γ M B) : Prop where
  rows : Rows s
  replica : ∀ r, (s.replicas r).Sound s.committed
  socket : ∀ i k, s.sockets i = some k → k.Sound s.committed (s.replicas k.replica)
  tended : ∀ r groupId c, (s.replicas r).channels groupId = some c → s.Tended r groupId c

/-! ### One step -/

variable {s s' : State R S Γ M B} {r r' : Replica Γ M B} {k k' : Socket R Γ M B}

theorem Replica.Sound.lt_length (h : r.Sound committed) (hp : p ∈ r.pending) : p < committed.length := by
  rw [Replica.pending, List.mem_append] at hp
  rcases hp with hp | hp
  · rcases htask : r.task with _ | ⟨q, n⟩ | ⟨q, groupId, event⟩
    · rw [htask] at hp
      exact absurd hp List.not_mem_nil
    · rw [htask] at hp
      obtain rfl := List.mem_singleton.mp hp
      exact (List.getElem?_eq_some_iff.mp (h.loading p n htask).1).1
    · rw [htask] at hp
      obtain rfl := List.mem_singleton.mp hp
      obtain ⟨n, hn, -⟩ := h.dispatching p groupId event htask
      exact (List.getElem?_eq_some_iff.mp hn).1
  · obtain ⟨e, he, rfl⟩ := List.mem_map.mp hp
    exact (List.getElem?_eq_some_iff.mp (h.known e he)).1

/-- What a replica does by itself leaves a socket sound, if what it had to cover is covered. -/
theorem Socket.Sound.replica (h : k.Sound committed r) (hready : r.ready = true → r'.ready = true) (hnext : r.next ≤ r'.next)
    (hchannels : ∀ groupId, r'.channels groupId = some k.channel → r.channels groupId = some k.channel)
    (hpending : ∀ p ∈ r'.pending, p ∈ r.pending)
    (hcovered : r'.connected = true → r'.closing = false → r'.channels k.groupId = some k.channel →
      ∀ rc, k.receiver = some rc → ∀ p n, k.since ≤ p → committed[p]? = some n → n.groupId = k.groupId → p ∉ r'.failed →
        Covered committed k.groupId r'.pending (k.sent ++ rc.queue) p) : k.Sound committed r' where
  ready := hready h.ready
  channel := h.channel.trans_le hnext
  own groupId hg := h.own groupId (hchannels groupId hg)
  cleaned := h.cleaned
  sent := h.sent
  queued rc hrc e he := ⟨(h.queued rc hrc e he).1, fun p hp => (h.queued rc hrc e he).2 p (hpending p hp)⟩
  covered := hcovered

section

variable [DecidableEq R]

/-- A replica changed, and no socket. -/
theorem Sound.setReplica (h : Sound s) {i : R} (hr : r'.Sound s.committed)
    (hsocket : ∀ j k, s.sockets j = some k → k.replica = i → k.Sound s.committed (s.replicas i) → k.Sound s.committed r')
    (hchannels : ∀ groupId c, r'.channels groupId = some c → (s.replicas i).channels groupId = some c) :
    Sound (s.setReplica i r') where
  rows := ⟨h.rows.id, h.rows.kept⟩
  replica j := by
    by_cases hj : j = i
    · subst hj
      rw [State.setReplica_self]
      exact hr
    · rw [State.setReplica_of_ne hj]
      exact h.replica j
  socket j k hk := by
    have hsound := h.socket j k hk
    by_cases hj : k.replica = i
    · rw [hj] at hsound
      rw [hj, State.setReplica_self]
      exact hsocket j k hk hj hsound
    · rw [State.setReplica_of_ne hj]
      exact hsound
  tended j groupId c hc := by
    refine h.tended j groupId c ?_
    by_cases hj : j = i
    · subst hj
      rw [State.setReplica_self] at hc
      exact hchannels groupId c hc
    · rwa [State.setReplica_of_ne hj] at hc

end

section

variable [DecidableEq S]

/-- A socket changed, and no replica. -/
theorem Sound.setSocket (h : Sound s) {i : S} (hk : k.Sound s.committed (s.replicas k.replica))
    (htended : ∀ r groupId c, (s.replicas r).channels groupId = some c → (s.setSocket i k).Tended r groupId c) :
    Sound (s.setSocket i k) where
  rows := ⟨h.rows.id, h.rows.kept⟩
  replica := h.replica
  socket j k' hk' := by
    by_cases hj : j = i
    · subst hj
      rw [State.setSocket_self] at hk'
      obtain rfl := Option.some.inj hk'
      exact hk
    · rw [State.setSocket_of_ne hj] at hk'
      exact h.socket j k' hk'
  tended := htended

/-- A channel tended by another socket is tended still. -/
theorem State.Tended.of_ne {i j : S} {x : R} {c : ℕ} (hj : s.sockets j = some k) (hne : j ≠ i)
    (hkeeps : k.replica = x ∧ k.groupId = groupId ∧
      (k.receiver.isSome ∧ k.channel = c ∨ k.receiver = none ∧ k.cleaned = false)) :
    (s.setSocket i k').Tended x groupId c := by
  refine ⟨j, k, ?_, hkeeps⟩
  rw [State.setSocket_of_ne hne]
  exact hj

/-- A socket that receives still, or has its cleanup to run, tends what it tended. -/
theorem State.Tended.setSocket {i : S} {x : R} {c : ℕ} (h : s.Tended x groupId c) (hk : s.sockets i = some k)
    (hsame : k'.replica = k.replica ∧ k'.groupId = k.groupId ∧ k'.channel = k.channel ∧ k'.cleaned = k.cleaned)
    (hreceiver : k.receiver.isSome → k'.receiver.isSome ∨ k'.receiver = none ∧ k'.cleaned = false)
    (hdropped : k.receiver = none → k'.receiver = none) : (s.setSocket i k').Tended x groupId c := by
  obtain ⟨j, k₀, hj, hx, hg, hkeeps⟩ := h
  by_cases hne : j = i
  · subst hne
    obtain rfl := Option.some.inj (hj.symm.trans hk)
    refine ⟨j, k', State.setSocket_self, hsame.1.trans hx, hsame.2.1.trans hg, ?_⟩
    rcases hkeeps with ⟨hsome, hc⟩ | ⟨hnone, hcleaned⟩
    · rcases hreceiver hsome with hsome | hnone
      · exact .inl ⟨hsome, hsame.2.2.1.trans hc⟩
      · exact .inr hnone
    · exact .inr ⟨hdropped hnone, hsame.2.2.2.trans hcleaned⟩
  · exact .of_ne hj hne ⟨hx, hg, hkeeps⟩

end

end Home.MessageHub
