import ManageOurHome.Messagerie.Listener

/-! @src apps/api/src/messagerie/mod.rs, apps/api/src/messagerie/ws.rs | layer:proof | family:messagerie

    The live thread followed. A socket starts after every change committed, and moves what it receives to its client; a
    commit adds one change, still to handle wherever a connection is up. So every interleaving is sound.

        subscribe ─▶ receive · lagged ⟲ ─▶ leave ─▶ cleanup -/

namespace Home.MessageHub

open Broadcast Relation

variable {R S Γ M B : Type} {committed : List (Notification Γ M)} {n : Notification Γ M} {groupId : Γ} {p : ℕ}
  {s s' : State R S Γ M B} {r r' : Replica Γ M B} {k k' : Socket R Γ M B}

/-! ### The sockets -/

/-- A socket that has just subscribed, after every change so far. -/
theorem Replica.Sound.subscribed (h : r.Sound committed) {x : R} {c : ℕ} (hready : r.ready = true)
    (hc : r.channels groupId = some c) :
    Socket.Sound committed r (⟨x, groupId, committed.length, c, some .empty, [], false⟩ : Socket R Γ M B) where
  ready := hready
  channel := h.fresh groupId c hc
  own groupId' hc' := h.apart groupId' groupId c hc' hc
  cleaned hcleaned := absurd hcleaned (by simp)
  sent e he := absurd he List.not_mem_nil
  queued rc hrc e he := by
    obtain rfl := Option.some.inj hrc
    exact absurd he List.not_mem_nil
  covered _ _ _ rc _ p n hsince hn _ _ := by
    have hlt := (List.getElem?_eq_some_iff.mp hn).1
    exact absurd hlt (not_lt.mpr hsince)

/-- A socket whose cleanup has run. -/
theorem Socket.Sound.clean (h : k.Sound committed r) (hdropped : k.receiver = none) :
    Socket.Sound committed r { k with cleaned := true } :=
  { h with cleaned := fun _ => hdropped }

section

variable [DecidableEq S]

/-- STEP: a socket subscribes to a channel there. -/
theorem Sound.subscribe (h : Sound s) {i : S} {x : R} {c : ℕ} (hi : s.sockets i = none)
    (hready : (s.replicas x).ready = true) (hc : (s.replicas x).channels groupId = some c) :
    Sound (s.setSocket i ⟨x, groupId, s.committed.length, c, some .empty, [], false⟩) := by
  refine h.setSocket ((h.replica x).subscribed hready hc) fun y g c' hc' => ?_
  obtain ⟨j, k, hj, hkeeps⟩ := h.tended y g c' hc'
  refine .of_ne hj ?_ hkeeps
  rintro rfl
  exact absurd (hj.symm.trans hi) (by simp)

/-- STEP: or to one of its own. -/
theorem Sound.subscribeFirst [DecidableEq R] (h : Sound s) {i : S} {x : R} (hi : s.sockets i = none)
    (hready : (s.replicas x).ready = true) (hnone : (s.replicas x).channels groupId = none) [DecidableEq Γ] :
    Sound ((s.setReplica x { s.replicas x with
        channels := Function.update (s.replicas x).channels groupId (some (s.replicas x).next)
        next := (s.replicas x).next + 1 }).setSocket i
      ⟨x, groupId, s.committed.length, (s.replicas x).next, some .empty, [], false⟩) := by
  have hr := h.replica x
  set r' : Replica Γ M B := { s.replicas x with
    channels := Function.update (s.replicas x).channels groupId (some (s.replicas x).next)
    next := (s.replicas x).next + 1 } with hr'
  have hself : r'.channels groupId = some (s.replicas x).next := Function.update_self _ _ _
  have hother : ∀ g, g ≠ groupId → r'.channels g = (s.replicas x).channels g := fun g hg => Function.update_of_ne hg _ _
  have hold : ∀ g c, r'.channels g = some c → c < (s.replicas x).next → (s.replicas x).channels g = some c := by
    intro g c hc hlt
    by_cases hg : g = groupId
    · subst hg
      obtain rfl := Option.some.inj (hself.symm.trans hc)
      exact absurd hlt (lt_irrefl _)
    · rwa [hother g hg] at hc
  have hne : ∀ j k, s.sockets j = some k → j ≠ i := by
    rintro j k hj rfl
    exact absurd (hj.symm.trans hi) (by simp)
  have hsound : r'.Sound s.committed := by
    refine { hr with fresh := fun g c hc => ?_, apart := fun g g' c hc hc' => ?_ }
    · by_cases hg : g = groupId
      · subst hg
        obtain rfl := Option.some.inj (hself.symm.trans hc)
        exact Nat.lt_succ_self _
      · rw [hother g hg] at hc
        exact (hr.fresh g c hc).trans (Nat.lt_succ_self _)
    · by_cases hlt : c < (s.replicas x).next
      · exact hr.apart g g' c (hold g c hc hlt) (hold g' c hc' hlt)
      · have hnew : ∀ g, r'.channels g = some c → g = groupId := by
          intro g hc
          by_contra hg
          rw [hother g hg] at hc
          exact hlt (hr.fresh g c hc)
        rw [hnew g hc, hnew g' hc']
  refine ⟨⟨h.rows.id, h.rows.kept⟩, fun y => ?_, fun j k hk => ?_, fun y g c hc => ?_⟩
  · change Replica.Sound s.committed ((s.setReplica x r').replicas y)
    by_cases hy : y = x
    · subst hy
      rw [State.setReplica_self]
      exact hsound
    · rw [State.setReplica_of_ne hy]
      exact h.replica y
  · change Socket.Sound s.committed ((s.setReplica x r').replicas k.replica) k
    by_cases hj : j = i
    · subst hj
      rw [State.setSocket_self] at hk
      obtain rfl := Option.some.inj hk
      rw [State.setReplica_self]
      exact hsound.subscribed hready hself
    · rw [State.setSocket_of_ne hj] at hk
      have hk' := h.socket j k hk
      by_cases hy : k.replica = x
      · rw [hy] at hk' ⊢
        rw [State.setReplica_self]
        refine hk'.replica (fun hready => hready) (Nat.le_succ _) (fun g hc => hold g _ hc hk'.channel) (fun _ hq => hq) ?_
        exact fun hup hopen hc => hk'.covered hup hopen (hold _ _ hc hk'.channel)
      · rw [State.setReplica_of_ne hy]
        exact hk'
  · change ((s.setReplica x r').replicas y).channels g = some c at hc
    have hcases : (y = x ∧ g = groupId ∧ (s.replicas x).next = c) ∨ (s.replicas y).channels g = some c := by
      by_cases hy : y = x
      · subst hy
        rw [State.setReplica_self] at hc
        by_cases hg : g = groupId
        · subst hg
          exact .inl ⟨rfl, rfl, Option.some.inj (hself.symm.trans hc)⟩
        · rw [hother g hg] at hc
          exact .inr hc
      · rw [State.setReplica_of_ne hy] at hc
        exact .inr hc
    rcases hcases with ⟨rfl, rfl, rfl⟩ | hc
    · exact ⟨i, _, State.setSocket_self, rfl, rfl, .inl ⟨rfl, rfl⟩⟩
    · obtain ⟨j, k, hj, hkeeps⟩ := h.tended y g c hc
      exact .of_ne (s := s.setReplica x r') hj (hne j k hj) hkeeps

/-- STEP: a socket receives an event, and sends it. -/
theorem Sound.receive (h : Sound s) {i : S} {e : ℕ × MessageEvent Γ M B} {queue : List (ℕ × MessageEvent Γ M B)}
    (hk : s.sockets i = some k) (hreceiver : k.receiver = some ⟨e :: queue, false⟩) :
    Sound (s.setSocket i { k with receiver := some ⟨queue, false⟩, sent := k.sent ++ [e] }) := by
  have hsound := h.socket i k hk
  refine h.setSocket ?_ fun y g c hc => ?_
  · refine { hsound with cleaned := ?_, sent := ?_, queued := ?_, covered := ?_ }
    · intro hcleaned
      exact absurd (hreceiver.symm.trans (hsound.cleaned hcleaned)) (by simp)
    · intro e' he'
      rcases List.mem_append.mp he' with he' | he'
      · exact hsound.sent e' he'
      · obtain rfl := List.mem_singleton.mp he'
        exact (hsound.queued _ hreceiver _ List.mem_cons_self).1
    · intro rc hrc e' he'
      obtain rfl := Option.some.inj hrc
      exact hsound.queued _ hreceiver e' (List.mem_cons_of_mem _ he')
    · intro hup hopen hc rc hrc p n hsince hn hg hread
      obtain rfl := Option.some.inj hrc
      have hold := hsound.covered hup hopen hc _ hreceiver p n hsince hn hg hread
      rwa [List.append_assoc, List.singleton_append]
  · exact (h.tended y g c hc).setSocket hk ⟨rfl, rfl, rfl, rfl⟩ (fun _ => .inl rfl) fun hnone =>
      absurd (hreceiver.symm.trans hnone) (by simp)

/-- STEP: a socket is told that it lagged. -/
theorem Sound.lagged (h : Sound s) {i : S} {queue : List (ℕ × MessageEvent Γ M B)} (hk : s.sockets i = some k)
    (hreceiver : k.receiver = some ⟨queue, true⟩) : Sound (s.setSocket i { k with receiver := some ⟨queue, false⟩ }) := by
  have hsound := h.socket i k hk
  refine h.setSocket ?_ fun y g c hc => ?_
  · refine { hsound with cleaned := ?_, queued := ?_, covered := ?_ }
    · intro hcleaned
      exact absurd (hreceiver.symm.trans (hsound.cleaned hcleaned)) (by simp)
    · intro rc hrc e he
      obtain rfl := Option.some.inj hrc
      exact hsound.queued _ hreceiver e he
    · intro hup hopen hc rc hrc
      obtain rfl := Option.some.inj hrc
      exact fun p n hsince hn hg hread => hsound.covered hup hopen hc ⟨queue, true⟩ hreceiver p n hsince hn hg hread
  · exact (h.tended y g c hc).setSocket hk ⟨rfl, rfl, rfl, rfl⟩ (fun _ => .inl rfl) fun hnone =>
      absurd (hreceiver.symm.trans hnone) (by simp)

/-- STEP: a socket closes. -/
theorem Sound.leave (h : Sound s) {i : S} (hk : s.sockets i = some k) :
    Sound (s.setSocket i { k with receiver := none }) := by
  have hsound := h.socket i k hk
  refine h.setSocket ?_ fun y g c hc => ?_
  · refine { hsound with cleaned := fun _ => rfl, queued := ?_, covered := ?_ }
    · exact fun _ hrc => absurd hrc (by simp)
    · exact fun _ _ _ _ hrc => absurd hrc (by simp)
  · refine (h.tended y g c hc).setSocket hk ⟨rfl, rfl, rfl, rfl⟩ (fun hsome => .inr ⟨rfl, ?_⟩) fun _ => rfl
    rw [← Bool.not_eq_true]
    intro hcleaned
    rw [hsound.cleaned hcleaned] at hsome
    exact absurd hsome (by simp)

/-- STEP: the cleanup finds no receiver. -/
theorem Sound.cleanup [DecidableEq Γ] [DecidableEq R] (h : Sound s) {i : S} (hk : s.sockets i = some k) (hdropped : k.receiver = none) :
    Sound ((s.setReplica k.replica { s.replicas k.replica with
        channels := Function.update (s.replicas k.replica).channels k.groupId none }).setSocket i
      { k with cleaned := true }) := by
  have hr := h.replica k.replica
  set r' : Replica Γ M B := { s.replicas k.replica with
    channels := Function.update (s.replicas k.replica).channels k.groupId none } with hr'
  have hself : r'.channels k.groupId = none := Function.update_self _ _ _
  have hold : ∀ g c, r'.channels g = some c → (s.replicas k.replica).channels g = some c := by
    intro g c hc
    by_cases hg : g = k.groupId
    · rw [hg, hself] at hc
      exact absurd hc (by simp)
    · exact (Function.update_of_ne hg _ _).symm.trans hc
  have hsound : r'.Sound s.committed :=
    { hr with
      fresh := fun g c hc => hr.fresh g c (hold g c hc)
      apart := fun g g' c hc hc' => hr.apart g g' c (hold g c hc) (hold g' c hc') }
  have hleft : ∀ k₀ : Socket R Γ M B, k₀.Sound s.committed (s.replicas k.replica) → k₀.Sound s.committed r' :=
    fun k₀ hsound => hsound.replica (fun hready => hready) le_rfl (fun g hc => hold g _ hc) (fun _ hq => hq)
      fun hup hopen hc => hsound.covered hup hopen (hold _ _ hc)
  refine ⟨⟨h.rows.id, h.rows.kept⟩, fun y => ?_, fun j k₀ hk₀ => ?_, fun y g c hc => ?_⟩
  · change Replica.Sound s.committed ((s.setReplica k.replica r').replicas y)
    by_cases hy : y = k.replica
    · subst hy
      rw [State.setReplica_self]
      exact hsound
    · rw [State.setReplica_of_ne hy]
      exact h.replica y
  · change Socket.Sound s.committed ((s.setReplica k.replica r').replicas k₀.replica) k₀
    by_cases hj : j = i
    · subst hj
      rw [State.setSocket_self] at hk₀
      obtain rfl := Option.some.inj hk₀
      rw [State.setReplica_self]
      exact (hleft k (h.socket j k hk)).clean hdropped
    · rw [State.setSocket_of_ne hj] at hk₀
      have hk₀' := h.socket j k₀ hk₀
      by_cases hy : k₀.replica = k.replica
      · rw [hy] at hk₀' ⊢
        rw [State.setReplica_self]
        exact hleft k₀ hk₀'
      · rw [State.setReplica_of_ne hy]
        exact hk₀'
  · change ((s.setReplica k.replica r').replicas y).channels g = some c at hc
    have hprevious : (s.replicas y).channels g = some c ∧ ¬(y = k.replica ∧ g = k.groupId) := by
      by_cases hy : y = k.replica
      · subst hy
        rw [State.setReplica_self] at hc
        refine ⟨hold g c hc, ?_⟩
        rintro ⟨-, rfl⟩
        exact absurd (hself.symm.trans hc) (by simp)
      · rw [State.setReplica_of_ne hy] at hc
        exact ⟨hc, fun hboth => hy hboth.1⟩
    obtain ⟨j, k₀, hj, hy, hg, hkeeps⟩ := h.tended y g c hprevious.1
    refine .of_ne (s := s.setReplica k.replica r') hj ?_ ⟨hy, hg, hkeeps⟩
    rintro rfl
    obtain rfl := Option.some.inj (hk.symm.trans hj)
    exact hprevious.2 ⟨hy.symm, hg.symm⟩

/-- STEP: or finds one, or no channel. -/
theorem Sound.cleanupKept (h : Sound s) {i : S} (hk : s.sockets i = some k) (hdropped : k.receiver = none)
    (hkept : ∀ c, (s.replicas k.replica).channels k.groupId = some c → ¬s.NoReceiver k.replica c) :
    Sound (s.setSocket i { k with cleaned := true }) := by
  refine h.setSocket ((h.socket i k hk).clean hdropped) fun y g c hc => ?_
  obtain ⟨j, k₀, hj, hy, hg, hkeeps⟩ := h.tended y g c hc
  by_cases hi : j = i
  · subst hi
    obtain rfl := Option.some.inj (hk.symm.trans hj)
    subst hy hg
    have hsome := hkept c hc
    simp only [State.NoReceiver, not_forall] at hsome
    obtain ⟨j', k', hj', hx, hc', hreceiver⟩ := hsome
    have hsound := h.socket j' k' hj'
    rw [hx] at hsound
    refine .of_ne hj' ?_ ⟨hx, (hsound.own _ (hc' ▸ hc)).symm, .inl ⟨Option.isSome_iff_ne_none.mpr hreceiver, hc'⟩⟩
    rintro rfl
    obtain rfl := Option.some.inj (hk.symm.trans hj')
    exact hreceiver hdropped
  · exact .of_ne hj hi ⟨hy, hg, hkeeps⟩

end

/-! ### The commits -/

/-- What a message's transaction leaves of its message: the row it writes, of its group, or none, and then it announces the
    deletion. -/
structure Written [DecidableEq M] (rows : M → Option (MessageResponse Γ M B)) (n : Notification Γ M)
    (rows' : M → Option (MessageResponse Γ M B)) (row : Option (MessageResponse Γ M B)) : Prop where
  rows_eq : rows' = Function.update rows n.messageId row
  of_row : ∀ message, row = some message → message.id = n.messageId ∧ message.groupId = n.groupId
  gone : row = none ↔ n.change = .Deleted
  previous : ∀ message, rows n.messageId = some message → message.groupId = n.groupId

theorem Writes.written [DecidableEq M] {rows rows' : M → Option (MessageResponse Γ M B)} (h : Writes rows n rows') :
    ∃ row, Written rows n rows' row := by
  cases h with
  | created message hnone =>
    refine ⟨some message, rfl, fun message' hm => ?_, by simp, fun message' hm => ?_⟩
    · obtain rfl := Option.some.inj hm
      exact ⟨rfl, rfl⟩
    · exact absurd (hnone.symm.trans hm) (by simp)
  | updated message body hsome =>
    refine ⟨some { message with body := body }, rfl, fun message' hm => ?_, by simp, fun message' hm => ?_⟩
    · obtain rfl := Option.some.inj hm
      exact ⟨rfl, rfl⟩
    · rw [Option.some.inj (hsome.symm.trans hm)]
  | deleted message hsome =>
    refine ⟨none, rfl, fun message' hm => absurd hm (by simp), by simp, fun message' hm => ?_⟩
    rw [Option.some.inj (hsome.symm.trans hm)]

theorem Rows.commit [DecidableEq M] (h : Rows s) {rows : M → Option (MessageResponse Γ M B)} (hwrites : Writes s.rows n rows)
    (replicas : R → Replica Γ M B) : Rows { s with committed := s.committed ++ [n], rows := rows, replicas := replicas } := by
  obtain ⟨row, hwritten⟩ := hwrites.written
  obtain rfl := hwritten.rows_eq
  refine ⟨fun m message hm => ?_, fun p n' hn' hchange => ?_⟩
  · dsimp only at hm
    by_cases hid : m = n.messageId
    · subst hid
      rw [Function.update_self] at hm
      exact (hwritten.of_row message hm).1
    · rw [Function.update_of_ne hid] at hm
      exact h.id m message hm
  · dsimp only
    by_cases hid : n'.messageId = n.messageId
    · rw [hid, Function.update_self]
      rcases hrow : row with _ | message
      · -- its deletion comes after it
        have hdeleted := hwritten.gone.mp hrow
        rcases getElem?_commit.mp hn' with hn' | ⟨-, rfl⟩
        · rcases h.kept p n' hn' hchange with ⟨message, hthere, hg⟩ | ⟨d, hlt, hd⟩
          · rw [hid] at hthere
            refine .inr ⟨s.committed.length, (List.getElem?_eq_some_iff.mp hn').1, getElem?_commit.mpr (.inr ⟨rfl, ?_⟩)⟩
            rw [← hg, hwritten.previous message hthere, ← hdeleted]
          · exact .inr ⟨d, hlt, hid ▸ getElem?_commit.mpr (.inl hd)⟩
        · exact absurd hdeleted hchange
      · rcases getElem?_commit.mp hn' with hn' | ⟨-, rfl⟩
        · rcases h.kept p n' hn' hchange with ⟨message', hthere, hg⟩ | ⟨d, hlt, hd⟩
          · rw [hid] at hthere
            refine .inl ⟨message, rfl, ?_⟩
            rw [← hg, hwritten.previous message' hthere, (hwritten.of_row message hrow).2]
          · exact .inr ⟨d, hlt, hid ▸ getElem?_commit.mpr (.inl hd)⟩
        · exact .inl ⟨message, rfl, (hwritten.of_row message hrow).2⟩
    · rw [Function.update_of_ne hid]
      rcases getElem?_commit.mp hn' with hn' | ⟨-, rfl⟩
      · rcases h.kept p n' hn' hchange with hthere | ⟨d, hlt, hd⟩
        · exact .inl hthere
        · exact .inr ⟨d, hlt, getElem?_commit.mpr (.inl hd)⟩
      · exact absurd rfl hid

theorem Replica.Sound.commit (h : r.Sound committed) :
    (r.notified committed.length n).Sound (committed ++ [n]) := by
  have hmono : ∀ (d : ℕ) n', committed[d]? = some n' → (committed ++ [n])[d]? = some n' :=
    fun d n' hn' => getElem?_commit.mpr (.inl hn')
  have hsame : r.Sound (committed ++ [n]) :=
    { h with
      known := fun e he => hmono _ _ (h.known e he)
      loading := fun p n' htask => ⟨hmono _ _ (h.loading p n' htask).1, (h.loading p n' htask).2⟩
      dispatching := fun p g event htask => (h.dispatching p g event htask).commit
      failed := fun p hp => (h.failed p hp).imp fun n' hn' => ⟨hmono _ _ hn'.1, hn'.2⟩ }
  rw [Replica.notified]
  split
  · refine { hsame with known := fun e he => ?_, ascending := ?_ }
    · rcases List.mem_append.mp he with he | he
      · exact hsame.known e he
      · obtain rfl := List.mem_singleton.mp he
        exact List.getElem?_concat_length
    · rw [Replica.pending, List.map_append, ← List.append_assoc, List.map_singleton]
      refine List.pairwise_append.mpr ⟨h.ascending, List.pairwise_singleton _ _, fun p hp q hq => ?_⟩
      rw [List.mem_singleton.mp hq]
      exact h.lt_length hp
  · exact hsame

theorem Replica.notified_pending (hconnected : r.connected = true) (p : ℕ) :
    (r.notified p n).pending = r.pending ++ [p] := by
  rw [Replica.notified, if_pos hconnected, Replica.pending, List.map_append, ← List.append_assoc]
  rfl

theorem Socket.Sound.commit (h : k.Sound committed r) : k.Sound (committed ++ [n]) (r.notified committed.length n) := by
  have hready : (r.notified committed.length n).ready = r.ready := by
    rw [Replica.notified]
    split <;> rfl
  have hchannels : (r.notified committed.length n).channels = r.channels := by
    rw [Replica.notified]
    split <;> rfl
  have hnext : (r.notified committed.length n).next = r.next := by
    rw [Replica.notified]
    split <;> rfl
  have hfailed : (r.notified committed.length n).failed = r.failed := by
    rw [Replica.notified]
    split <;> rfl
  have hclosing : (r.notified committed.length n).closing = r.closing := by
    rw [Replica.notified]
    split <;> rfl
  have hconnected : (r.notified committed.length n).connected = r.connected := by
    rw [Replica.notified]
    split <;> rfl
  have hpending : ∀ p ∈ (r.notified committed.length n).pending, p ∈ r.pending ∨ p = committed.length := by
    intro p hp
    by_cases hup : r.connected = true
    · rw [Replica.notified_pending hup, List.mem_append, List.mem_singleton] at hp
      exact hp
    · rw [Replica.notified, if_neg hup] at hp
      exact .inl hp
  refine ⟨hready.trans h.ready, hnext ▸ h.channel, hchannels ▸ h.own, h.cleaned, fun e he => (h.sent e he).commit, ?_, ?_⟩
  · intro rc hrc e he
    obtain ⟨hgroup, hbefore⟩ := h.queued rc hrc e he
    refine ⟨hgroup.commit, fun p hp => ?_⟩
    rcases hpending p hp with hp | rfl
    · exact hbefore p hp
    · obtain ⟨n', hn', -⟩ := hgroup
      exact (List.getElem?_eq_some_iff.mp hn').1
  · intro hup hopen hc rc hrc p n' hsince hn' hg hread
    rw [hconnected] at hup
    rw [hclosing] at hopen
    rw [hchannels] at hc
    rw [hfailed] at hread
    rw [Replica.notified_pending hup]
    rcases getElem?_commit.mp hn' with hn' | ⟨rfl, -⟩
    · exact (h.covered hup hopen hc rc hrc p n' hsince hn' hg hread).commit
    · exact .left (List.mem_append_right _ (List.mem_singleton_self _))

/-- STEP: a message's transaction commits, and announces its change. -/
theorem Sound.commit [DecidableEq M] (h : Sound s) {rows : M → Option (MessageResponse Γ M B)}
    (hwrites : Writes s.rows n rows) :
    Sound { s with
      committed := s.committed ++ [n]
      rows := rows
      replicas := fun x => (s.replicas x).notified s.committed.length n } where
  rows := h.rows.commit hwrites _
  replica x := (h.replica x).commit
  socket j k hk := (h.socket j k hk).commit
  tended x g c hc := by
    have hchannels : ((s.replicas x).notified s.committed.length n).channels = (s.replicas x).channels := by
      rw [Replica.notified]
      split <;> rfl
    rw [hchannels] at hc
    exact h.tended x g c hc

/-! ### Any interleaving -/

theorem sound_start : Sound (State.start : State R S Γ M B) where
  rows := ⟨fun m message hm => absurd hm (by simp [State.start]), fun p n hn => absurd hn (by simp [State.start])⟩
  replica _ :=
    { known := fun e he => absurd he List.not_mem_nil
      loading := fun _ _ h => absurd h (by simp [State.start])
      dispatching := fun _ _ _ h => absurd h (by simp [State.start])
      ascending := List.Pairwise.nil
      fresh := fun _ _ h => absurd h (by simp [State.start])
      apart := fun _ _ _ h => absurd h (by simp [State.start])
      failed := fun _ h => absurd h List.not_mem_nil }
  socket _ _ hk := absurd hk (by simp [State.start])
  tended _ _ _ hc := absurd hc (by simp [State.start])

variable [DecidableEq Γ] [DecidableEq M] [DecidableEq R] [DecidableEq S]

/-- STEP: what is kept is kept on. -/
theorem Sound.step (h : Sound s) (hstep : Step s s') : Sound s' := by
  cases hstep with
  | commit n rows hwrites => exact h.commit hwrites
  | lose r arrived harrived => exact h.lose harrived
  | connect r _ htask _ => exact h.connect htask
  | closeAll r _ => exact h.closeAll
  | skip r p n inbox htask _ hinbox hnone => exact h.skip htask hinbox hnone
  | takeDeleted r p n inbox c htask _ hinbox _ hchange => exact h.takeDeleted htask hinbox hchange
  | take r p n inbox c htask _ hinbox _ hchange => exact h.take htask hinbox hchange
  | load r p n message htask hload => exact h.load htask hload
  | loadGone r p n htask hgone => exact h.gone htask hgone
  | loadFailed r p n htask => exact h.readFailed htask
  | dispatch r p groupId event c htask hc => exact h.dispatch htask hc
  | dispatchNone r p groupId event htask hnone => exact h.dispatchNone htask hnone
  | subscribe i r groupId c hi hready hc => exact h.subscribe hi hready hc
  | subscribeFirst i r groupId hi hready hnone => exact h.subscribeFirst hi hready hnone
  | receive i k e queue hk hreceiver => exact h.receive hk hreceiver
  | lagged i k queue hk hreceiver => exact h.lagged hk hreceiver
  | leave i k hk => exact h.leave hk
  | cleanup i k c hk hdropped _ _ => exact h.cleanup hk hdropped
  | cleanupKept i k hk hdropped hkept => exact h.cleanupKept hk hdropped hkept

/-- RUN: whatever the interleaving. -/
theorem Sound.steps (h : Sound s) (hrun : ReflTransGen Step s s') : Sound s' := by
  induction hrun with
  | refl => exact h
  | tail _ hstep ih => exact ih.step hstep

/-- CORRECT: where its replica listens and has handled what it was sent, a drained socket was sent an event for each change
    of its group since it subscribed, or for a later one, but where the read-back of the change failed. -/
theorem followed_of_told (hrun : ReflTransGen Step State.start s) : Followed Replica.Told s := by
  have h : Sound s := sound_start.steps hrun
  refine ⟨fun i k hk hdrained hhandled p n hsince hn hg htold => ?_, fun i k hk => (h.socket i k hk).sent,
    fun hclean r groupId c hc => ?_⟩
  · have hsound := h.socket i k hk
    obtain ⟨g, hchannel⟩ := hdrained.channel
    obtain rfl := hsound.own g hchannel
    have hpending : (s.replicas k.replica).pending = [] := by
      rw [Replica.pending_of_idle hhandled.task, hhandled.inbox]
      rfl
    have hcovered := hsound.covered htold.connected hhandled.closing hchannel _ hdrained.receiver p n hsince hn hg htold.read
    rw [hpending] at hcovered
    cases hcovered with
    | event e he hle => exact ⟨e, (List.append_nil k.sent) ▸ he, hle⟩
    | left hmem => exact absurd hmem List.not_mem_nil
    | deletion d hmem => exact absurd hmem List.not_mem_nil
  · obtain ⟨i, k, hk, hr, hg, ⟨hsome, hchannel⟩ | ⟨hnone, hcleaned⟩⟩ := h.tended r groupId c hc
    · exact ⟨i, k, hk, hr, hg, hchannel, hsome⟩
    · exact absurd (hcleaned.symm.trans (hclean i k hk hnone)) (by simp)

/-! ### One change -/

/-- A group, its messages `true` and `false`, a replica and a socket. -/
abbrev One := State Unit Unit Unit Bool Unit

def created : Notification Unit Bool := ⟨(), .Created, true⟩

def message : MessageResponse Unit Bool Unit := ⟨true, (), ()⟩

/-- The socket has subscribed, on a replica that listens. -/
def listening (connected : Bool) : One where
  committed := []
  rows _ := none
  replicas _ := ⟨true, connected, false, [], .idle, fun _ => some 0, 1, []⟩
  sockets _ := some ⟨(), (), 0, 0, some .empty, [], false⟩

/-- The message is created, and what its notification became. -/
def after (connected : Bool) (inbox : List (ℕ × Notification Unit Bool)) (task : Task Unit Bool Unit) (failed : List ℕ)
    (receiver : Receiver (ℕ × MessageEvent Unit Bool Unit)) (sent : List (ℕ × MessageEvent Unit Bool Unit)) : One where
  committed := [created]
  rows := Function.update (fun _ => none) true (some message)
  replicas _ := ⟨true, connected, false, inbox, task, fun _ => some 0, 1, failed⟩
  sockets _ := some ⟨(), (), 0, 0, some receiver, sent, false⟩

/-- The replica listens, and nobody follows it. -/
def ready : One := ⟨[], fun _ => none, fun _ => ⟨true, true, false, [], .idle, fun _ => none, 0, []⟩, fun _ => none⟩

theorem steps_listening : ReflTransGen Step (State.start : One) (listening true) := by
  have hconnect : Step (State.start : One) ready := .connect State.start () rfl rfl rfl
  have hsubscribe : Step ready (listening true) := .subscribeFirst ready () () () rfl rfl rfl
  exact (ReflTransGen.single hconnect).tail hsubscribe

theorem writes_created : Writes (fun _ => none) created (Function.update (fun _ => none) true (some message)) :=
  .created message rfl

/-- Created, read back and sent. -/
theorem steps_sent : ReflTransGen Step (State.start : One)
    (after true [] .idle [] .empty [(0, .Created message)]) := by
  have hcommit : Step (listening true) (after true [(0, created)] .idle [] .empty []) :=
    .commit (listening true) created _ writes_created
  have htake : Step (after true [(0, created)] .idle [] .empty []) (after true [] (.loading 0 created) [] .empty []) :=
    .take (after true [(0, created)] .idle [] .empty []) () 0 created [] 0 rfl rfl rfl rfl (by decide)
  have hload : Step (after true [] (.loading 0 created) [] .empty [])
      (after true [] (.dispatching 0 () (.Created message)) [] .empty []) :=
    .load (after true [] (.loading 0 created) [] .empty []) () 0 created message rfl rfl
  have hdispatch : Step (after true [] (.dispatching 0 () (.Created message)) [] .empty [])
      (after true [] .idle [] ⟨[(0, .Created message)], false⟩ []) :=
    .dispatch (after true [] (.dispatching 0 () (.Created message)) [] .empty []) () 0 () _ 0 rfl rfl
  have hreceive : Step (after true [] .idle [] ⟨[(0, .Created message)], false⟩ [])
      (after true [] .idle [] .empty [(0, .Created message)]) :=
    .receive (after true [] .idle [] ⟨[(0, .Created message)], false⟩ []) () _ _ [] rfl rfl
  exact ((((steps_listening.tail hcommit).tail htake).tail hload).tail hdispatch).tail hreceive

/-- The event is sent, and the channel is tended. -/
theorem followed_of_told_sent : Followed Replica.Told (after true [] .idle [] .empty [(0, .Created message)]) :=
  followed_of_told steps_sent

/-- Read back in vain, and not sent. -/
theorem steps_failed : ReflTransGen Step (State.start : One) (after true [] .idle [0] .empty []) := by
  have hcommit : Step (listening true) (after true [(0, created)] .idle [] .empty []) :=
    .commit (listening true) created _ writes_created
  have htake : Step (after true [(0, created)] .idle [] .empty []) (after true [] (.loading 0 created) [] .empty []) :=
    .take (after true [(0, created)] .idle [] .empty []) () 0 created [] 0 rfl rfl rfl rfl (by decide)
  have hfailed : Step (after true [] (.loading 0 created) [] .empty []) (after true [] .idle [0] .empty []) :=
    .loadFailed (after true [] (.loading 0 created) [] .empty []) () 0 created rfl
  exact ((steps_listening.tail hcommit).tail htake).tail hfailed

/-- Committed while the connection is lost. -/
theorem steps_lost : ReflTransGen Step (State.start : One) (after false [] .idle [] .empty []) := by
  have hlose : Step (listening true) (listening false) := .lose (listening true) () [] List.nil_prefix
  have hcommit : Step (listening false) (after false [] .idle [] .empty []) :=
    .commit (listening false) created _ writes_created
  exact (steps_listening.tail hlose).tail hcommit

theorem not_follows {connected : Bool} {failed : List ℕ} :
    ¬Follows (fun _ _ => True) (after connected [] .idle failed .empty []) := by
  intro h
  obtain ⟨e, he, -⟩ := h () _ rfl ⟨rfl, (), rfl⟩ ⟨rfl, rfl, rfl⟩ 0 created le_rfl rfl rfl trivial
  exact absurd he List.not_mem_nil

/-- Neither sent nor closed: where a read-back failed, and while the connection is lost. -/
theorem not_told : (¬∀ s : One, ReflTransGen Step State.start s → (∀ r, (s.replicas r).connected = true) →
      Follows (fun _ _ => True) s) ∧
    ¬∀ s : One, ReflTransGen Step State.start s → (∀ r, (s.replicas r).failed = []) → Follows (fun _ _ => True) s :=
  ⟨fun h => not_follows (h _ steps_failed fun _ => rfl), fun h => not_follows (h _ steps_lost fun _ => rfl)⟩

end Home.MessageHub
