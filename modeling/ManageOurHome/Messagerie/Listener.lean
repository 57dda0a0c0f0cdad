import ManageOurHome.Messagerie.Live

/-! @src apps/api/src/messagerie/mod.rs | layer:proof | family:messagerie

    What the listener's steps keep. The first of what it was sent is taken up, and stays to handle; then an event for it is
    sent, or it is done with: its group is followed by nobody, its message is gone, or its read-back failed.

        skip · gone · failed · nobody left ─▶ done          dispatch ─▶ sent to each receiver -/

namespace Home.MessageHub

open Broadcast

variable {R S Γ M B : Type} {committed : List (Notification Γ M)} {n : Notification Γ M} {groupId : Γ} {p : ℕ}
  {s s' : State R S Γ M B} {r r' : Replica Γ M B} {k k' : Socket R Γ M B}

theorem Replica.pending_of_idle (h : r.task = .idle) : r.pending = r.inbox.map Prod.fst := by
  rw [Replica.pending, h]
  rfl

theorem Replica.pending_of_loading (h : r.task = .loading p n) : r.pending = p :: r.inbox.map Prod.fst := by
  rw [Replica.pending, h]
  rfl

theorem Replica.pending_of_dispatching {event : MessageEvent Γ M B} (h : r.task = .dispatching p groupId event) :
    r.pending = p :: r.inbox.map Prod.fst := by
  rw [Replica.pending, h]
  rfl

/-- What comes first is before the rest. -/
theorem Replica.Sound.before (h : r.Sound committed) {todo : List ℕ} (hpending : r.pending = p :: todo) :
    ∀ d ∈ todo, p < d := by
  have hascending := h.ascending
  rw [hpending] at hascending
  exact (List.pairwise_cons.mp hascending).1

variable [DecidableEq R]

/-- STEP: the first of what a replica was sent is done with, without an event. -/
theorem Sound.done (h : Sound s) {i : R} {p : ℕ} (hr : r'.Sound s.committed)
    (hpending : (s.replicas i).pending = p :: r'.pending) (hready : r'.ready = (s.replicas i).ready)
    (hconnected : r'.connected = (s.replicas i).connected) (hclosing : r'.closing = (s.replicas i).closing)
    (hnext : r'.next = (s.replicas i).next) (hchannels : r'.channels = (s.replicas i).channels)
    (hfailed : ∀ q ∈ (s.replicas i).failed, q ∈ r'.failed)
    (hcovered : ∀ j k rc, s.sockets j = some k → k.replica = i → k.Sound s.committed (s.replicas i) →
      (s.replicas i).connected = true → (s.replicas i).closing = false → (s.replicas i).channels k.groupId = some k.channel →
      k.receiver = some rc → k.since ≤ p → ∀ n, s.committed[p]? = some n → n.groupId = k.groupId → p ∉ r'.failed →
        Covered s.committed k.groupId r'.pending (k.sent ++ rc.queue) p)
    (hdeletion : ∀ j k, s.sockets j = some k → k.replica = i → (s.replicas i).channels k.groupId = some k.channel →
      ∀ m, s.committed[p]? ≠ some ⟨k.groupId, .Deleted, m⟩) : Sound (s.setReplica i r') := by
  refine h.setReplica hr (fun j k hk hi hsound => ?_) fun groupId c hc => hchannels ▸ hc
  refine hsound.replica (fun _ => hready.trans hsound.ready) hnext.ge (fun groupId hc => hchannels ▸ hc) ?_ ?_
  · intro q hq
    rw [hpending]
    exact List.mem_cons_of_mem _ hq
  · intro hup hopen hchannel rc hrc q n hsince hn hg hread
    rw [hconnected] at hup
    rw [hclosing] at hopen
    rw [hchannels] at hchannel
    by_cases hq : q = p
    · subst hq
      exact hcovered j k rc hk hi hsound hup hopen hchannel hrc hsince n hn hg hread
    · have hold := hsound.covered hup hopen hchannel rc hrc q n hsince hn hg fun hmem => hread (hfailed q hmem)
      rw [hpending] at hold
      exact hold.tail hq (hdeletion j k hk hi hchannel)

/-- STEP: nobody follows the group. -/
theorem Sound.skip (h : Sound s) {i : R} {p : ℕ} {n : Notification Γ M} {inbox : List (ℕ × Notification Γ M)}
    (htask : (s.replicas i).task = .idle) (hinbox : (s.replicas i).inbox = (p, n) :: inbox)
    (hnone : (s.replicas i).channels n.groupId = none) :
    Sound (s.setReplica i { s.replicas i with inbox := inbox }) := by
  have hr := h.replica i
  have hpending : (s.replicas i).pending = p :: Replica.pending { s.replicas i with inbox := inbox } := by
    rw [Replica.pending, Replica.pending, htask, hinbox]
    rfl
  have hn : s.committed[p]? = some n := hr.known (p, n) (hinbox ▸ List.mem_cons_self)
  have hother : ∀ j k, s.sockets j = some k → k.replica = i → (s.replicas i).channels k.groupId = some k.channel →
      n.groupId ≠ k.groupId := by
    rintro j k - - hchannel heq
    rw [← heq, hnone] at hchannel
    exact absurd hchannel (by simp)
  refine h.done { hr with known := ?_, ascending := ?_ } hpending rfl rfl rfl rfl rfl (fun _ hq => hq) ?_ ?_
  · exact fun e he => hr.known e (hinbox ▸ List.mem_cons_of_mem _ he)
  · have hascending := hr.ascending
    rw [hpending] at hascending
    exact (List.pairwise_cons.mp hascending).2
  · intro j k rc hk hi _ _ _ hchannel _ _ n' hn' hg
    obtain rfl := Option.some.inj (hn.symm.trans hn')
    exact absurd hg (hother j k hk hi hchannel)
  · intro j k hk hi hchannel m hm
    obtain rfl := Option.some.inj (hn.symm.trans hm)
    exact hother j k hk hi hchannel rfl

/-- STEP: the message is gone: its deletion covers the change. -/
theorem Sound.gone [DecidableEq Γ] (h : Sound s) {i : R} {p : ℕ} {n : Notification Γ M}
    (htask : (s.replicas i).task = .loading p n) (hgone : loadMessage s.rows n.groupId n.messageId = none) :
    Sound (s.setReplica i { s.replicas i with task := .idle }) := by
  have hr := h.replica i
  have hpending := Replica.pending_of_loading htask
  obtain ⟨hn, hchange⟩ := hr.loading p n htask
  obtain ⟨d, hlt, hd⟩ : ∃ d, p < d ∧ s.committed[d]? = some ⟨n.groupId, .Deleted, n.messageId⟩ := by
    rcases h.rows.kept p n hn hchange with ⟨message, hmessage, hg⟩ | hd
    · rw [loadMessage, hmessage, Option.filter_some, if_pos (decide_eq_true hg)] at hgone
      exact absurd hgone (by simp)
    · exact hd
  have hascending := hr.ascending
  rw [hpending] at hascending
  refine h.done { hr with loading := ?_, dispatching := ?_, ascending := ?_ } hpending rfl rfl rfl rfl rfl
    (fun _ hq => hq) ?_ ?_
  · exact fun _ _ h => absurd h (by simp)
  · exact fun _ _ _ h => absurd h (by simp)
  · exact (List.pairwise_cons.mp hascending).2
  · intro j k rc hk hi hsound hup hopen hchannel hrc hsince n' hn' hg hread
    obtain rfl := Option.some.inj (hn.symm.trans hn')
    rw [hg] at hd
    have hreadd : d ∉ (s.replicas i).failed := by
      intro hmem
      obtain ⟨n'', hn'', hne⟩ := hr.failed d hmem
      obtain rfl := Option.some.inj (hd.symm.trans hn'')
      exact hne rfl
    have hold := hsound.covered hup hopen hchannel rc hrc d _ (hsince.trans hlt.le) hd rfl hreadd
    rw [hpending] at hold
    cases hold.tail hlt.ne' (fun m hm => hchange (by rw [Option.some.inj (hn.symm.trans hm)])) with
    | event e he hle => exact .event e he (hlt.le.trans hle)
    | left hmem => exact .deletion d hmem hlt _ hd
    | deletion d' hmem hlt' m hd' => exact .deletion d' hmem (hlt.trans hlt') m hd'
  · intro j k _ _ _ m hm
    exact hchange (by rw [Option.some.inj (hn.symm.trans hm)])

/-- STEP: the read-back fails. -/
theorem Sound.readFailed (h : Sound s) {i : R} {p : ℕ} {n : Notification Γ M}
    (htask : (s.replicas i).task = .loading p n) :
    Sound (s.setReplica i { s.replicas i with task := .idle, failed := p :: (s.replicas i).failed }) := by
  have hr := h.replica i
  have hpending := Replica.pending_of_loading htask
  obtain ⟨hn, hchange⟩ := hr.loading p n htask
  have hascending := hr.ascending
  rw [hpending] at hascending
  refine h.done { hr with loading := ?_, dispatching := ?_, ascending := ?_, failed := ?_ } hpending rfl rfl rfl rfl rfl
    (fun _ hq => List.mem_cons_of_mem _ hq) ?_ ?_
  · exact fun _ _ h => absurd h (by simp)
  · exact fun _ _ _ h => absurd h (by simp)
  · exact (List.pairwise_cons.mp hascending).2
  · intro q hq
    rcases List.mem_cons.mp hq with rfl | hq
    · exact ⟨n, hn, hchange⟩
    · exact hr.failed q hq
  · intro j k rc _ _ _ _ _ _ _ _ _ _ _ hread
    exact absurd List.mem_cons_self hread
  · intro j k _ _ _ m hm
    exact hchange (by rw [Option.some.inj (hn.symm.trans hm)])

/-- STEP: nobody follows the group any more. -/
theorem Sound.dispatchNone (h : Sound s) {i : R} {p : ℕ} {event : MessageEvent Γ M B}
    (htask : (s.replicas i).task = .dispatching p groupId event) (hnone : (s.replicas i).channels groupId = none) :
    Sound (s.setReplica i { s.replicas i with task := .idle }) := by
  have hr := h.replica i
  have hpending := Replica.pending_of_dispatching htask
  obtain ⟨n, hn, hg, -⟩ := hr.dispatching p groupId event htask
  have hother : ∀ j k, s.sockets j = some k → k.replica = i → (s.replicas i).channels k.groupId = some k.channel →
      n.groupId ≠ k.groupId := by
    rintro j k - - hchannel heq
    rw [← heq, hg, hnone] at hchannel
    exact absurd hchannel (by simp)
  have hascending := hr.ascending
  rw [hpending] at hascending
  refine h.done { hr with loading := ?_, dispatching := ?_, ascending := ?_ } hpending rfl rfl rfl rfl rfl
    (fun _ hq => hq) ?_ ?_
  · exact fun _ _ h => absurd h (by simp)
  · exact fun _ _ _ h => absurd h (by simp)
  · exact (List.pairwise_cons.mp hascending).2
  · intro j k rc hk hi _ _ _ hchannel _ _ n' hn' hg'
    obtain rfl := Option.some.inj (hn.symm.trans hn')
    exact absurd hg' (hother j k hk hi hchannel)
  · intro j k hk hi hchannel m hm
    obtain rfl := Option.some.inj (hn.symm.trans hm)
    exact hother j k hk hi hchannel rfl

/-- STEP: the first of what a replica was sent is taken up: it is still to handle. -/
theorem Sound.taken (h : Sound s) {i : R} (hr : r'.Sound s.committed) (hpending : r'.pending = (s.replicas i).pending)
    (hready : r'.ready = (s.replicas i).ready) (hconnected : r'.connected = (s.replicas i).connected)
    (hclosing : r'.closing = (s.replicas i).closing) (hnext : r'.next = (s.replicas i).next)
    (hchannels : r'.channels = (s.replicas i).channels) (hfailed : r'.failed = (s.replicas i).failed) :
    Sound (s.setReplica i r') := by
  refine h.setReplica hr (fun j k hk hi hsound => ?_) fun groupId c hc => hchannels ▸ hc
  refine hsound.replica (fun _ => hready.trans hsound.ready) hnext.ge (fun groupId hc => hchannels ▸ hc)
    (fun _ hq => hpending ▸ hq) ?_
  intro hup hopen hchannel rc hrc p n hsince hn hg hread
  rw [hpending]
  exact hsound.covered (hconnected ▸ hup) (hclosing ▸ hopen) (hchannels ▸ hchannel) rc hrc p n hsince hn hg (hfailed ▸ hread)

theorem Sound.takeDeleted (h : Sound s) {i : R} {p : ℕ} {n : Notification Γ M} {inbox : List (ℕ × Notification Γ M)}
    (htask : (s.replicas i).task = .idle) (hinbox : (s.replicas i).inbox = (p, n) :: inbox) (hchange : n.change = .Deleted) :
    Sound (s.setReplica i { s.replicas i with
      inbox := inbox, task := .dispatching p n.groupId (.Deleted n.messageId) }) := by
  have hr := h.replica i
  have hpending : (s.replicas i).pending = p :: inbox.map Prod.fst := by
    rw [Replica.pending, htask, hinbox]
    rfl
  have hascending := hr.ascending
  rw [hpending] at hascending
  refine h.taken { hr with known := ?_, loading := ?_, dispatching := ?_, ascending := hascending } hpending.symm rfl rfl rfl
    rfl rfl rfl
  · exact fun e he => hr.known e (hinbox ▸ List.mem_cons_of_mem _ he)
  · exact fun _ _ h => absurd h (by simp)
  · intro q groupId event heq
    obtain ⟨rfl, rfl, rfl⟩ := Task.dispatching.inj heq
    exact ⟨n, hr.known (p, n) (hinbox ▸ List.mem_cons_self), rfl, hchange, rfl⟩

theorem Sound.take (h : Sound s) {i : R} {p : ℕ} {n : Notification Γ M} {inbox : List (ℕ × Notification Γ M)}
    (htask : (s.replicas i).task = .idle) (hinbox : (s.replicas i).inbox = (p, n) :: inbox) (hchange : n.change ≠ .Deleted) :
    Sound (s.setReplica i { s.replicas i with inbox := inbox, task := .loading p n }) := by
  have hr := h.replica i
  have hpending : (s.replicas i).pending = p :: inbox.map Prod.fst := by
    rw [Replica.pending, htask, hinbox]
    rfl
  have hascending := hr.ascending
  rw [hpending] at hascending
  refine h.taken { hr with known := ?_, loading := ?_, dispatching := ?_, ascending := hascending } hpending.symm rfl rfl rfl
    rfl rfl rfl
  · exact fun e he => hr.known e (hinbox ▸ List.mem_cons_of_mem _ he)
  · intro q n' heq
    obtain ⟨rfl, rfl⟩ := Task.loading.inj heq
    exact ⟨hr.known (p, n) (hinbox ▸ List.mem_cons_self), hchange⟩
  · exact fun _ _ _ h => absurd h (by simp)

omit [DecidableEq R] in
/-- A message read back is the change's, of its group. -/
theorem announces_of [DecidableEq Γ] (h : Rows s) {message : MessageResponse Γ M B} (hchange : n.change ≠ .Deleted)
    (hload : loadMessage s.rows n.groupId n.messageId = some message) : Announces n (.of n.change message) := by
  obtain ⟨hrow, hg⟩ := Option.filter_eq_some_iff.mp hload
  have hid := h.id _ _ hrow
  cases hkind : n.change with
  | Created => exact ⟨hkind, hid, of_decide_eq_true hg⟩
  | Updated => exact ⟨hkind, hid, of_decide_eq_true hg⟩
  | Deleted => exact absurd hkind hchange

theorem Sound.load [DecidableEq Γ] (h : Sound s) {i : R} {p : ℕ} {n : Notification Γ M} {message : MessageResponse Γ M B}
    (htask : (s.replicas i).task = .loading p n) (hload : loadMessage s.rows n.groupId n.messageId = some message) :
    Sound (s.setReplica i { s.replicas i with task := .dispatching p n.groupId (.of n.change message) }) := by
  have hr := h.replica i
  have hpending := Replica.pending_of_loading htask
  have hascending := hr.ascending
  rw [hpending] at hascending
  obtain ⟨hn, hchange⟩ := hr.loading p n htask
  refine h.taken { hr with loading := ?_, dispatching := ?_, ascending := hascending } hpending.symm rfl rfl rfl rfl rfl rfl
  · exact fun _ _ h => absurd h (by simp)
  · intro q groupId event heq
    obtain ⟨rfl, rfl, rfl⟩ := Task.dispatching.inj heq
    exact ⟨n, hn, rfl, announces_of h.rows hchange hload⟩

/-- STEP: the connection is lost. -/
theorem Sound.lose (h : Sound s) {i : R} {arrived : List (ℕ × Notification Γ M)} (harrived : arrived <+: (s.replicas i).inbox) :
    Sound (s.setReplica i { s.replicas i with connected := false, inbox := arrived }) := by
  have hr := h.replica i
  have hsub : (Replica.pending { s.replicas i with connected := false, inbox := arrived }).Sublist (s.replicas i).pending :=
    (List.Sublist.refl _).append (harrived.sublist.map _)
  refine h.setReplica { hr with known := ?_, ascending := hr.ascending.sublist hsub } (fun j k hk hi hsound => ?_)
    fun groupId c hc => hc
  · exact fun e he => hr.known e (harrived.subset he)
  · refine hsound.replica (fun hready => hready) le_rfl (fun _ hc => hc) (fun _ hq => hsub.subset hq) fun hup => ?_
    exact absurd hup (by simp)

/-- STEP: it listens again: what it follows, it is about to close. -/
theorem Sound.connect (h : Sound s) {i : R} (htask : (s.replicas i).task = .idle) :
    Sound (s.setReplica i { s.replicas i with
      ready := true, connected := true, closing := (s.replicas i).ready, inbox := [] }) := by
  have hr := h.replica i
  have hpending : Replica.pending { s.replicas i with
      ready := true, connected := true, closing := (s.replicas i).ready, inbox := [] } = [] := by
    rw [Replica.pending]
    dsimp only
    rw [htask]
    rfl
  refine h.setReplica { hr with known := ?_, ascending := hpending ▸ List.Pairwise.nil } (fun j k hk hi hsound => ?_)
    fun groupId c hc => hc
  · exact fun e he => absurd he List.not_mem_nil
  · refine hsound.replica (fun _ => rfl) le_rfl (fun _ hc => hc) (fun q hq => ?_) fun _ hopen => ?_
    · rw [hpending] at hq
      exact absurd hq List.not_mem_nil
    · -- a socket is of a replica that had listened
      dsimp only at hopen
      rw [hsound.ready] at hopen
      exact absurd hopen (by simp)

/-- STEP: every socket's channel is dropped. -/
theorem Sound.closeAll (h : Sound s) {i : R} :
    Sound (s.setReplica i { s.replicas i with closing := false, channels := fun _ => none }) := by
  have hr := h.replica i
  refine h.setReplica { hr with fresh := ?_, apart := ?_ } (fun j k hk hi hsound => ?_) fun groupId c hc => ?_
  · exact fun _ _ hc => absurd hc (by simp)
  · exact fun _ _ _ hc => absurd hc (by simp)
  · refine hsound.replica (fun hready => hready) le_rfl (fun _ hc => absurd hc (by simp)) (fun _ hq => hq) fun _ _ hc => ?_
    exact absurd hc (by simp)
  · exact absurd hc (by simp)

theorem push_of_ne {x : R} {c : ℕ} {e : ℕ × MessageEvent Γ M B} (h : ¬(k.replica = x ∧ k.channel = c)) :
    k.push x c e = k := if_neg h

/-- STEP: an event is sent on its group's channel. -/
theorem Sound.dispatch (h : Sound s) {i : R} {p c : ℕ} {event : MessageEvent Γ M B}
    (htask : (s.replicas i).task = .dispatching p groupId event) (hchannel : (s.replicas i).channels groupId = some c) :
    Sound { s.setReplica i { s.replicas i with task := .idle } with
      sockets := fun j => (s.sockets j).map (Socket.push i c (p, event)) } := by
  have hr := h.replica i
  have hpending := Replica.pending_of_dispatching htask
  have hascending := hr.ascending
  rw [hpending] at hascending
  obtain ⟨hbefore, htail⟩ := List.pairwise_cons.mp hascending
  have hevent : OfGroup s.committed groupId (p, event) := hr.dispatching p groupId event htask
  have hr' : Replica.Sound s.committed ({ s.replicas i with task := .idle } : Replica Γ M B) := by
    refine { hr with loading := ?_, dispatching := ?_, ascending := htail }
    · exact fun _ _ h => absurd h (by simp)
    · exact fun _ _ _ h => absurd h (by simp)
  have hreplica : ∀ x, ((s.setReplica i { s.replicas i with task := .idle }).replicas x).channels =
      (s.replicas x).channels := by
    intro x
    by_cases hx : x = i
    · subst hx
      rw [State.setReplica_self]
    · rw [State.setReplica_of_ne hx]
  refine ⟨⟨h.rows.id, h.rows.kept⟩, fun x => ?_, fun j k' hk' => ?_, fun x g c' hc' => ?_⟩
  · by_cases hx : x = i
    · subst hx
      change Replica.Sound s.committed ((s.setReplica x _).replicas x)
      rw [State.setReplica_self]
      exact hr'
    · change Replica.Sound s.committed ((s.setReplica i _).replicas x)
      rw [State.setReplica_of_ne hx]
      exact h.replica x
  · obtain ⟨k, hk, rfl⟩ := Option.map_eq_some_iff.mp hk'
    have hsound := h.socket j k hk
    by_cases hi : k.replica = i
    · subst hi
      by_cases hc : k.channel = c
      · -- this one receives it
        have hpush : k.push k.replica c (p, event) =
            { k with receiver := k.receiver.map fun rc => rc.push (places HUB_CHANNEL_CAPACITY) (p, event) } :=
          if_pos ⟨rfl, hc⟩
        rw [hpush]
        change Socket.Sound s.committed ((s.setReplica k.replica _).replicas k.replica) _
        rw [State.setReplica_self]
        have hg : groupId = k.groupId := hsound.own groupId (hc ▸ hchannel)
        refine { hsound with cleaned := ?_, queued := ?_, covered := ?_ }
        · intro hcleaned
          dsimp only
          rw [hsound.cleaned hcleaned]
          rfl
        · intro rc' hrc' e he
          obtain ⟨rc, hrc, rfl⟩ := Option.map_eq_some_iff.mp hrc'
          rcases mem_push_of he with he | rfl
          · refine ⟨(hsound.queued rc hrc e he).1, fun q hq => (hsound.queued rc hrc e he).2 q ?_⟩
            rw [hpending]
            exact List.mem_cons_of_mem _ hq
          · exact ⟨hg ▸ hevent, hbefore⟩
        · intro hup hopen hown rc' hrc' q n hsince hn hng hread
          obtain ⟨rc, hrc, rfl⟩ := Option.map_eq_some_iff.mp hrc'
          have hold := hsound.covered hup hopen hown rc hrc q n hsince hn hng hread
          rw [hpending] at hold
          have hin : (p, event) ∈ (rc.push (places HUB_CHANNEL_CAPACITY) (p, event)).queue := mem_push (places_pos _)
          refine hold.sent hbefore (fun e he => ?_) (List.mem_append_right _ hin)
          rcases List.mem_append.mp he with he | he
          · exact .inl (List.mem_append_left _ he)
          · -- what a full ring loses came before
            refine .inr ((hsound.queued rc hrc e he).2 p ?_).le
            rw [hpending]
            exact List.mem_cons_self
      · -- of another channel: of another group, or closed
        rw [push_of_ne fun hboth => hc hboth.2]
        change Socket.Sound s.committed ((s.setReplica k.replica _).replicas k.replica) k
        rw [State.setReplica_self]
        refine hsound.replica (fun hready => hready) le_rfl (fun _ hc => hc) (fun q hq => ?_) ?_
        · rw [hpending]
          exact List.mem_cons_of_mem _ hq
        · intro hup hopen hown rc hrc q n hsince hn hng hread
          have hold := hsound.covered hup hopen hown rc hrc q n hsince hn hng hread
          rw [hpending] at hold
          obtain ⟨n', hn', hg', -⟩ := hevent
          have hother : groupId ≠ k.groupId := by
            rintro rfl
            exact hc (Option.some.inj (hown.symm.trans hchannel))
          refine hold.tail ?_ fun m hm => ?_
          · rintro rfl
            obtain rfl := Option.some.inj (hn.symm.trans hn')
            exact hother (hg'.symm.trans hng)
          · obtain rfl := Option.some.inj (hn'.symm.trans hm)
            exact hother hg'.symm
    · rw [push_of_ne fun hboth => hi hboth.1]
      change Socket.Sound s.committed ((s.setReplica i _).replicas k.replica) k
      rw [State.setReplica_of_ne hi]
      exact hsound
  · change ((s.setReplica i _).replicas x).channels g = some c' at hc'
    rw [hreplica] at hc'
    obtain ⟨j, k, hk, hx, hg, hkeeps⟩ := h.tended x g c' hc'
    refine ⟨j, k.push i c (p, event), ?_, ?_⟩
    · change (s.sockets j).map _ = _
      rw [hk]
      rfl
    · by_cases hboth : k.replica = i ∧ k.channel = c
      · rw [Socket.push, if_pos hboth]
        refine ⟨hx, hg, ?_⟩
        rcases hkeeps with ⟨hsome, hc⟩ | ⟨hnone, hcleaned⟩
        · exact .inl ⟨by rw [Option.isSome_map]; exact hsome, hc⟩
        · exact .inr ⟨by rw [hnone]; rfl, hcleaned⟩
      · rw [push_of_ne hboth]
        exact ⟨hx, hg, hkeeps⟩

end Home.MessageHub
