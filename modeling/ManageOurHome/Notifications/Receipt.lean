import Mathlib.Algebra.Order.Group.Int
import Mathlib.Data.List.Count
import Mathlib.Logic.Relation
import ManageOurHome.Notifications.Push

/-! @src apps/api/src/jobs/scheduled_notifications.rs, apps/api/src/notifications/preferences.rs | layer:proof |
    family:push

    A device shows the text of the push it received, or the neutral one, and the pushes in flight are all
    counted: while they are counted as of one kind, they all are of that kind. The count is an `i32` and stops at
    its greatest value, so this holds for as many pushes in flight.

        counted reminder ─▶ counted alert: mixed ─▶ received: neutral ─▶ received: neutral ─▶ nothing pending -/

namespace Home.Push

open Relation

/-! ### Pushes, and what the device's row remembers of them -/

/-- Refused by the push service: it never arrives. -/
def PushOutcome.refuses : PushOutcome → Bool
  | .Gone | .Failed _ => true
  | .Delivered | .Unanswered _ => false

/-- A push counted on the device: whether its receipt has been handled, and its answer. -/
structure Sent where
  kind : PushKind
  until_ : ℤ
  received : Bool
  outcome : Option PushOutcome
  deriving DecidableEq

/-- It may still arrive. -/
def Sent.inFlight (now : ℤ) (p : Sent) : Bool := !p.received ∧ !p.outcome.any PushOutcome.refuses ∧ now < p.until_

/-- The clock, the row while the device is subscribed, the pushes, and each receipt's kind and answer. -/
structure Phone where
  clock : ℤ
  row : Option Columns
  pushes : List Sent
  answers : List (PushKind × Option PushKind)

def Phone.inFlight (s : Phone) : ℕ := s.pushes.countP (Sent.inFlight s.clock)

/-- `note_pending`: nothing for a device gone meanwhile. -/
def notePending (change : Pending → Pending) (row : Option Columns) : Option Columns :=
  row.map fun c => (change (.fromColumns c)).write

/-- What `push_device` notes of an answer. -/
def noteOutcome (outcome : PushOutcome) (row : Option Columns) : Option Columns :=
  match outcome with
  | .Delivered => row
  | .Unanswered _ => notePending pendingAfterUnanswered row
  | .Gone | .Failed _ => notePending pendingAfterFailure row

/-- `push_device`, before it sends and once answered; `received`. A receipt and an answer come before the
    push's TTL is over, a push arrives once at most, and one refused does not arrive. -/
inductive Happens : Phone → Phone → Prop where
  | tick (s : Phone) (c : ℤ) (h : s.clock ≤ c) : Happens s { s with clock := c }
  | forgotten (s : Phone) : Happens s { s with row := none }
  | counted (s : Phone) (kind : PushKind) (ttlSecs : ℤ) :
      Happens s { s with
        row := notePending (fun p => pendingAfterPush p kind s.clock ttlSecs) s.row
        pushes := s.pushes ++ [⟨kind, s.clock + ttlSecs * second, false, none⟩] }
  | answered (s : Phone) (before after : List Sent) (p : Sent) (outcome : PushOutcome)
      (h : s.pushes = before ++ p :: after) (hfirst : p.outcome = none) (huntil : s.clock < p.until_)
      (hnever : outcome.refuses = true → p.received = false) :
      Happens s { s with
        row := noteOutcome outcome s.row
        pushes := before ++ { p with outcome := some outcome } :: after }
  | received (s : Phone) (before after : List Sent) (p : Sent) (h : s.pushes = before ++ p :: after)
      (hflies : p.inFlight s.clock = true) :
      Happens s { s with
        row := notePending (fun p => (pendingOnReceipt p s.clock).2) s.row
        pushes := before ++ { p with received := true } :: after
        answers := (p.kind, s.row.bind fun c => (pendingOnReceipt (.fromColumns c) s.clock).1) :: s.answers }

/-! ### The columns -/

theorem PushKind.parse_asStr (kind : PushKind) : PushKind.parse kind.asStr = some kind := by
  cases kind <;> decide

theorem PendingKind.parse_asStr (kind : PendingKind) : PendingKind.parse kind.asStr = some kind := by
  rcases kind with kind | _
  · cases kind <;> decide
  · decide

/-- Nothing pending has neither kind nor date, and what is pending has a kind. -/
structure Pending.Sound (p : Pending) : Prop where
  none : p.count ≤ 0 → p = .default
  kind : 0 < p.count → p.kind.isSome

theorem sound_default : Pending.Sound .default := ⟨fun _ => rfl, fun h => absurd h (by decide)⟩

theorem sound_fromColumns (c : Columns) : (Pending.fromColumns c).Sound := by
  rw [Pending.fromColumns]
  split
  · exact sound_default
  · rename_i hpos
    exact ⟨fun h => absurd h hpos, fun _ => rfl⟩

/-- ROUND TRIP: what is pending is read back from its columns. -/
theorem fromColumns_write {p : Pending} (h : p.Sound) : Pending.fromColumns p.write = p := by
  rw [Pending.fromColumns]
  split
  · rename_i hnone
    exact (h.none hnone).symm
  · rename_i hpos
    obtain ⟨kind, hkind⟩ := Option.isSome_iff_exists.mp (h.kind (not_le.mp hpos))
    rcases p with ⟨k, count, until_⟩
    dsimp only at hkind
    subst hkind
    simp [Pending.write, PendingKind.parse_asStr]

theorem sound_of_pos {p : Pending} (hpos : 0 < p.count) (hkind : p.kind.isSome) : p.Sound :=
  ⟨fun h => absurd hpos (not_lt.mpr h), fun _ => hkind⟩

theorem live_iff {p : Pending} {now : ℤ} : p.live now = true ↔ 0 < p.count ∧ ∃ u ∈ p.until_, now < u := by
  rw [Pending.live, decide_eq_true_eq, Option.any_eq_true]
  simp

theorem sound_pendingAfterPush (p : Pending) (kind : PushKind) (now ttl : ℤ) :
    (pendingAfterPush p kind now ttl).Sound := by
  rw [pendingAfterPush]
  split
  · exact sound_of_pos one_pos rfl
  · rename_i hlive
    rw [Bool.not_eq_true', Bool.not_eq_false, live_iff] at hlive
    refine sound_of_pos ?_ rfl
    have hpos := hlive.1
    change 0 < min I32_MAX (p.count + 1)
    rw [I32_MAX]
    omega

theorem sound_pendingAfterFailure {p : Pending} (h : p.Sound) : (pendingAfterFailure p).Sound := by
  rw [pendingAfterFailure]
  split
  · exact sound_default
  · rename_i hcount
    exact sound_of_pos (by change 0 < max (p.count - 1) 0; omega) (h.kind (by omega))

theorem sound_pendingAfterUnanswered (p : Pending) : (pendingAfterUnanswered p).Sound := by
  rw [pendingAfterUnanswered]
  split
  · exact sound_default
  · rename_i hpos
    exact sound_of_pos (not_le.mp hpos) rfl

theorem sound_pendingOnReceipt {p : Pending} (h : p.Sound) (now : ℤ) : (pendingOnReceipt p now).2.Sound := by
  rw [pendingOnReceipt]
  split
  · exact sound_default
  · rename_i hlive
    rw [Bool.not_eq_true', Bool.not_eq_false, live_iff] at hlive
    dsimp only
    split
    · exact sound_default
    · rename_i hcount
      have hpos := hlive.1
      exact sound_of_pos (by change 0 < p.count - 1; omega) (h.kind hpos)

/-! ### What the row covers -/

theorem inFlight_iff {now : ℤ} {p : Sent} : p.inFlight now = true ↔
    p.received = false ∧ p.outcome.any PushOutcome.refuses = false ∧ now < p.until_ := by
  rw [Sent.inFlight, decide_eq_true_eq, Bool.not_eq_true', Bool.not_eq_true']

/-- The pushes in flight are counted, none expires after the date kept, and all are of the kind kept. -/
structure Covers (now : ℤ) (pushes : List Sent) (p : Pending) : Prop where
  count : (pushes.countP (Sent.inFlight now) : ℤ) ≤ p.count
  until_ : ∀ q ∈ pushes, q.inFlight now = true → ∃ u ∈ p.until_, q.until_ ≤ u
  kind : ∀ q ∈ pushes, q.inFlight now = true → ∀ k, p.kind = some (.Only k) → q.kind = k

variable {now now' : ℤ} {pushes pushes' before after : List Sent} {p p' : Pending} {q q' : Sent}

/-- While a push is in flight, what is pending is live. -/
theorem Covers.live (h : Covers now pushes p) (hq : q ∈ pushes) (hflies : q.inFlight now = true) :
    p.live now = true := by
  have hpos : 0 < pushes.countP (Sent.inFlight now) := List.countP_pos_iff.mpr ⟨q, hq, hflies⟩
  obtain ⟨u, hu, hle⟩ := h.until_ q hq hflies
  have hcount := h.count
  exact live_iff.mpr ⟨by omega, u, hu, (inFlight_iff.mp hflies).2.2.trans_le hle⟩

/-- With nothing in flight, anything covers. -/
theorem covers_of_none (h : ∀ q ∈ pushes, q.inFlight now = false) (hp : 0 ≤ p.count) : Covers now pushes p := by
  have hzero : pushes.countP (Sent.inFlight now) = 0 :=
    List.countP_eq_zero.mpr fun q hq => by rw [h q hq]; simp
  refine ⟨by omega, fun q hq hflies => ?_, fun q hq hflies => ?_⟩
  · exact absurd (hflies.symm.trans (h q hq)) (by simp)
  · exact absurd (hflies.symm.trans (h q hq)) (by simp)

theorem none_of_countP_le (h : (pushes.countP (Sent.inFlight now) : ℤ) ≤ 0) :
    ∀ q ∈ pushes, q.inFlight now = false := fun q hq => by
  by_contra hflies
  have hpos : 0 < pushes.countP (Sent.inFlight now) :=
    List.countP_pos_iff.mpr ⟨q, hq, Bool.not_eq_false _ ▸ hflies⟩
  omega

/-- Fewer in flight, counted all the same. -/
theorem Covers.fewer (h : Covers now pushes p) (hcount : (pushes'.countP (Sent.inFlight now') : ℤ) ≤ p'.count)
    (hmem : ∀ r ∈ pushes', r.inFlight now' = true →
      ∃ r₀ ∈ pushes, r₀.inFlight now = true ∧ r₀.kind = r.kind ∧ r₀.until_ = r.until_)
    (huntil : p'.until_ = p.until_) (hkind : ∀ k, p'.kind = some (.Only k) → p.kind = some (.Only k)) :
    Covers now' pushes' p' := by
  refine ⟨hcount, fun r hr hflies => ?_, fun r hr hflies k hk => ?_⟩
  · obtain ⟨r₀, hr₀, hflies₀, -, heq⟩ := hmem r hr hflies
    rw [huntil, ← heq]
    exact h.until_ r₀ hr₀ hflies₀
  · obtain ⟨r₀, hr₀, hflies₀, heq, -⟩ := hmem r hr hflies
    rw [← heq]
    exact h.kind r₀ hr₀ hflies₀ k (hkind k hk)

/-! ### One step -/

theorem Covers.tick (h : Covers now pushes p) (hle : now ≤ now') : Covers now' pushes p := by
  have hflies : ∀ q : Sent, q.inFlight now' = true → q.inFlight now = true := fun q hq => by
    obtain ⟨hreceived, hrefused, huntil⟩ := inFlight_iff.mp hq
    exact inFlight_iff.mpr ⟨hreceived, hrefused, hle.trans_lt huntil⟩
  have hcount := List.countP_mono_left (l := pushes) fun q _ => hflies q
  have := h.count
  exact h.fewer (by omega) (fun q hq hq' => ⟨q, hq, hflies q hq', rfl, rfl⟩) rfl fun _ hk => hk

variable (before after q q') in
theorem countP_replace (f : Sent → Bool) : (before ++ q' :: after).countP f + (if f q then 1 else 0) =
    (before ++ q :: after).countP f + (if f q' then 1 else 0) := by
  rw [List.countP_append, List.countP_append, List.countP_cons, List.countP_cons]
  omega

/-- A push in the list, of the same kind and date, replaced. -/
theorem mem_replace (hkind : q.kind = q'.kind) (huntil : q.until_ = q'.until_)
    (hflies : q'.inFlight now = true → q.inFlight now = true) :
    ∀ r ∈ before ++ q' :: after, r.inFlight now = true →
      ∃ r₀ ∈ before ++ q :: after, r₀.inFlight now = true ∧ r₀.kind = r.kind ∧ r₀.until_ = r.until_ := by
  intro r hr hr'
  rcases List.mem_append.mp hr with hr | hr
  · exact ⟨r, List.mem_append_left _ hr, hr', rfl, rfl⟩
  · rcases List.mem_cons.mp hr with rfl | hr
    · exact ⟨q, List.mem_append_right _ List.mem_cons_self, hflies hr', hkind, huntil⟩
    · exact ⟨r, List.mem_append_right _ (List.mem_cons_of_mem _ hr), hr', rfl, rfl⟩

/-- STEP: a push more is counted, as long as the count can hold it. -/
theorem Covers.counted (h : Covers now pushes p) (kind : PushKind) (ttl : ℤ)
    (hroom : ((pushes ++ [(⟨kind, now + ttl * second, false, none⟩ : Sent)]).countP (Sent.inFlight now) : ℤ) ≤
      I32_MAX) :
    Covers now (pushes ++ [⟨kind, now + ttl * second, false, none⟩]) (pendingAfterPush p kind now ttl) := by
  set new : Sent := ⟨kind, now + ttl * second, false, none⟩
  have hone : (pushes ++ [new]).countP (Sent.inFlight now) ≤ pushes.countP (Sent.inFlight now) + 1 := by
    rw [List.countP_append]
    exact Nat.add_le_add_left (List.countP_le_length) _
  rw [pendingAfterPush]
  split
  · rename_i hdead
    have hnone : ∀ q ∈ pushes, q.inFlight now = false := fun q hq => by
      by_contra hflies
      have hlive := h.live hq (Bool.not_eq_false _ ▸ hflies)
      rw [hlive] at hdead
      exact absurd hdead (by simp)
    have hzero : pushes.countP (Sent.inFlight now) = 0 :=
      List.countP_eq_zero.mpr fun q hq => by rw [hnone q hq]; simp
    refine ⟨by change _ ≤ (1 : ℤ); omega, fun q hq hflies => ?_, fun q hq hflies k hk => ?_⟩
    · rcases List.mem_append.mp hq with hq | hq
      · exact absurd (hflies.symm.trans (hnone q hq)) (by simp)
      · rw [List.mem_singleton.mp hq]
        exact ⟨_, rfl, le_rfl⟩
    · rcases List.mem_append.mp hq with hq | hq
      · exact absurd (hflies.symm.trans (hnone q hq)) (by simp)
      · rw [List.mem_singleton.mp hq]
        exact PendingKind.Only.inj (Option.some.inj hk)
  · have hcount := h.count
    refine ⟨?_, fun q hq hflies => ⟨_, rfl, ?_⟩, fun q hq hflies k hk => ?_⟩
    · change _ ≤ min I32_MAX (p.count + 1)
      omega
    · rcases List.mem_append.mp hq with hq | hq
      · obtain ⟨u, hu, hle⟩ := h.until_ q hq hflies
        rw [Option.mem_def.mp hu]
        exact hle.trans (le_max_left _ _)
      · rw [List.mem_singleton.mp hq]
        rcases p.until_ with _ | u
        · exact le_rfl
        · exact le_max_right _ _
    · have hk := Option.some.inj hk
      split at hk
      · rename_i hsame
        obtain rfl := PendingKind.Only.inj hk
        rcases List.mem_append.mp hq with hq | hq
        · exact h.kind q hq hflies kind hsame
        · rw [List.mem_singleton.mp hq]
      · exact absurd hk (by simp)

/-- STEP: a push taken off, refused or received, is taken off the count. -/
theorem Covers.taken (h : Covers now (before ++ q :: after) p) (hflies : q.inFlight now = true)
    (hkind : q.kind = q'.kind) (huntil : q.until_ = q'.until_) (hgone : q'.inFlight now = false)
    (hcount : p'.count = p.count - 1) (hp : p' = .default ∨ p'.kind = p.kind ∧ p'.until_ = p.until_) :
    Covers now (before ++ q' :: after) p' := by
  have hone := countP_replace before after q q' (Sent.inFlight now)
  rw [if_pos hflies, if_neg (by rw [hgone]; simp)] at hone
  have hle := h.count
  have hfewer : ((before ++ q' :: after).countP (Sent.inFlight now) : ℤ) ≤ p'.count := by omega
  rcases hp with hdefault | ⟨hsame, hdate⟩
  · rw [hdefault] at hfewer ⊢
    exact covers_of_none (none_of_countP_le hfewer) le_rfl
  · exact h.fewer hfewer (mem_replace hkind huntil fun hflies' => absurd (hflies'.symm.trans hgone) (by simp)) hdate
      fun k hk => hsame ▸ hk

/-- STEP: an answer that does not refuse leaves the push in flight, if it was. -/
theorem Covers.answered (h : Covers now (before ++ q :: after) p) (hkind : q.kind = q'.kind)
    (huntil : q.until_ = q'.until_) (hflies : q'.inFlight now = q.inFlight now)
    (hp : p' = p ∨ p' = pendingAfterUnanswered p) : Covers now (before ++ q' :: after) p' := by
  have hone := countP_replace before after q q' (Sent.inFlight now)
  rw [hflies] at hone
  have hle := h.count
  have hmem : ∀ r ∈ before ++ q' :: after, r.inFlight now = true →
      ∃ r₀ ∈ before ++ q :: after, r₀.inFlight now = true ∧ r₀.kind = r.kind ∧ r₀.until_ = r.until_ :=
    mem_replace hkind huntil fun hq' => hflies ▸ hq'
  rcases hp with rfl | rfl
  · exact h.fewer (by omega) hmem rfl fun _ hk => hk
  · rw [pendingAfterUnanswered]
    split
    · exact covers_of_none (none_of_countP_le (by omega)) le_rfl
    · exact h.fewer (by change _ ≤ p.count; omega) hmem rfl fun _ hk => absurd hk (by simp)

theorem pendingAfterFailure_eq (hpos : 0 < p.count) : (pendingAfterFailure p).count = p.count - 1 ∧
    (pendingAfterFailure p = .default ∨
      (pendingAfterFailure p).kind = p.kind ∧ (pendingAfterFailure p).until_ = p.until_) := by
  rw [pendingAfterFailure]
  split
  · rename_i hzero
    exact ⟨by change (0 : ℤ) = p.count - 1; omega, Or.inl rfl⟩
  · exact ⟨by change max (p.count - 1) 0 = _; omega, Or.inr ⟨rfl, rfl⟩⟩

/-- What is shown on a receipt, something being pending: the kind pending, if it is one. -/
theorem pendingOnReceipt_eq (hlive : p.live now = true) :
    (∀ k, (pendingOnReceipt p now).1 = some k → p.kind = some (.Only k)) ∧
      (pendingOnReceipt p now).2.count = p.count - 1 ∧
      ((pendingOnReceipt p now).2 = .default ∨
        (pendingOnReceipt p now).2.kind = p.kind ∧ (pendingOnReceipt p now).2.until_ = p.until_) := by
  rw [pendingOnReceipt, if_neg (by rw [hlive]; simp)]
  refine ⟨fun k hk => ?_, ?_⟩
  · rcases hkind : p.kind with _ | kind | _
    · rw [hkind] at hk
      exact absurd hk (by simp)
    · rw [hkind] at hk
      rw [Option.some.inj hk]
    · rw [hkind] at hk
      exact absurd hk (by simp)
  · dsimp only
    split
    · rename_i hzero
      exact ⟨hzero.symm, Or.inl rfl⟩
    · exact ⟨rfl, Or.inr ⟨rfl, rfl⟩⟩

/-! ### The whole run -/

/-- The row covers the pushes in flight, and no receipt was answered with another kind. -/
structure Tracks (s : Phone) : Prop where
  row : ∀ c, s.row = some c → Covers s.clock s.pushes (.fromColumns c) ∧ 0 ≤ c.pendingPushes
  answers : ∀ kind shown, (kind, some shown) ∈ s.answers → shown = kind

/-- What is noted is what the row then covers. -/
theorem covers_notePending {row : Option Columns} {change : Pending → Pending} (hsound : ∀ p, p.Sound → (change p).Sound)
    (hcovers : ∀ c, row = some c → Covers now pushes (change (.fromColumns c))) :
    ∀ c, notePending change row = some c → Covers now pushes (.fromColumns c) ∧ 0 ≤ c.pendingPushes := by
  intro c hc
  obtain ⟨c₀, hc₀, rfl⟩ := Option.map_eq_some_iff.mp hc
  have h := hcovers c₀ hc₀
  rw [fromColumns_write (hsound _ (sound_fromColumns c₀))]
  exact ⟨h, le_trans (Int.natCast_nonneg _) h.count⟩

/-- STEP: the row goes on covering the pushes in flight, as long as the count can hold them. -/
theorem Happens.tracks {s s' : Phone} (h : Happens s s') (htracks : Tracks s) (hroom : (s'.inFlight : ℤ) ≤ I32_MAX) :
    Tracks s' := by
  cases h with
  | tick c hc =>
    exact ⟨fun c hrow => ⟨(htracks.row c hrow).1.tick hc, (htracks.row c hrow).2⟩, htracks.answers⟩
  | forgotten => exact ⟨fun _ hrow => absurd hrow (by simp), htracks.answers⟩
  | counted kind ttl =>
    refine ⟨covers_notePending (fun p _ => sound_pendingAfterPush p kind s.clock ttl) fun c hrow => ?_,
      htracks.answers⟩
    exact (htracks.row c hrow).1.counted kind ttl hroom
  | answered before after p outcome hpushes hfirst huntil hnever =>
    have hrow := htracks.row
    rw [hpushes] at hrow
    have hflies : p.inFlight s.clock = !p.received := by
      rw [Sent.inFlight, hfirst]
      simp [huntil]
    refine ⟨?_, htracks.answers⟩
    rcases houtcome : outcome.refuses with _ | _
    · have hsame : ({ p with outcome := some outcome } : Sent).inFlight s.clock = p.inFlight s.clock := by
        rw [hflies, Sent.inFlight, Option.any_some, houtcome]
        simp [huntil]
      rcases outcome with _ | _ | e | e
      · exact fun c hc => ⟨(hrow c hc).1.answered rfl rfl hsame (Or.inl rfl), (hrow c hc).2⟩
      · exact absurd houtcome (by decide)
      · exact absurd houtcome (by simp [PushOutcome.refuses])
      · exact covers_notePending (fun p _ => sound_pendingAfterUnanswered p) fun c hc =>
          (hrow c hc).1.answered rfl rfl hsame (Or.inr rfl)
    · have hup : p.inFlight s.clock = true := by rw [hflies, hnever houtcome]; rfl
      have hgone : ({ p with outcome := some outcome } : Sent).inFlight s.clock = false := by
        rw [Sent.inFlight, Option.any_some, houtcome]
        simp
      have hnote : noteOutcome outcome s.row = notePending pendingAfterFailure s.row := by
        rcases outcome with _ | _ | e | e
        · exact absurd houtcome (by decide)
        · rfl
        · rfl
        · exact absurd houtcome (by simp [PushOutcome.refuses])
      rw [hnote]
      refine covers_notePending (fun _ => sound_pendingAfterFailure) fun c hc => ?_
      have hlive := (hrow c hc).1.live (List.mem_append_right _ List.mem_cons_self) hup
      obtain ⟨hcount, hrest⟩ := pendingAfterFailure_eq (live_iff.mp hlive).1
      exact (hrow c hc).1.taken hup rfl rfl hgone hcount hrest
  | received before after p hpushes hflies =>
    have hrow := htracks.row
    rw [hpushes] at hrow
    have hmem : p ∈ before ++ p :: after := List.mem_append_right _ List.mem_cons_self
    have hgone : ({ p with received := true } : Sent).inFlight s.clock = false := by
      rw [Sent.inFlight]
      simp
    refine ⟨covers_notePending (fun _ h => sound_pendingOnReceipt h s.clock) fun c hc => ?_, ?_⟩
    · obtain ⟨-, hcount, hrest⟩ := pendingOnReceipt_eq ((hrow c hc).1.live hmem hflies)
      exact (hrow c hc).1.taken hflies rfl rfl hgone hcount hrest
    · intro kind shown hanswer
      rcases List.mem_cons.mp hanswer with heq | hanswer
      · obtain ⟨rfl, hshown⟩ := Prod.mk.inj heq
        obtain ⟨c, hc, hshown⟩ := Option.bind_eq_some_iff.mp hshown.symm
        have hkind := (pendingOnReceipt_eq ((hrow c hc).1.live hmem hflies)).1 shown hshown
        exact ((hrow c hc).1.kind p hmem hflies shown hkind).symm
      · exact htracks.answers kind shown hanswer

/-- A device just subscribed, and nothing sent. -/
def phone (clock : ℤ) : Phone := ⟨clock, some (Pending.write .default), [], []⟩

/-- What happens, with no more pushes in flight than the count can hold. -/
def Within (s s' : Phone) : Prop := Happens s s' ∧ (s'.inFlight : ℤ) ≤ I32_MAX

/-- NO OTHER KIND'S TEXT: with at most `i32::MAX` pushes in flight at once, a receipt is answered with its push's
    kind, or with none, and the pushes recorded are no fewer than those in flight. -/
theorem shows_own_kind {clock : ℤ} {s : Phone} (hrun : ReflTransGen Within (phone clock) s) :
    (∀ kind shown, (kind, some shown) ∈ s.answers → shown = kind) ∧
      ∀ c, s.row = some c → (s.inFlight : ℤ) ≤ c.pendingPushes := by
  have htracks : Tracks s := by
    induction hrun with
    | refl =>
      refine ⟨fun c hc => ?_, fun _ _ h => absurd h List.not_mem_nil⟩
      obtain rfl := Option.some.inj hc
      exact ⟨covers_of_none (fun _ h => absurd h List.not_mem_nil) le_rfl, le_rfl⟩
    | tail _ hstep ih => exact hstep.1.tracks ih hstep.2
  refine ⟨htracks.answers, fun c hc => ?_⟩
  obtain ⟨hcovers, hpos⟩ := htracks.row c hc
  refine hcovers.count.trans ?_
  rw [Pending.fromColumns]
  split
  · exact hpos
  · exact le_rfl

/-- An alert while a reminder is in flight: the reminder's receipt shows the neutral text. -/
theorem shows_own_kind_mixed : ∃ s : Phone, s.answers = [(.AgendaReminder, none)] ∧ s.inFlight = 1 ∧
    ∀ c, s.row = some c → (s.inFlight : ℤ) ≤ c.pendingPushes := by
  have hrun : ReflTransGen Within (phone 0) _ :=
    .head ⟨.counted _ .AgendaReminder 60, by decide⟩ <| .head ⟨.counted _ .BudgetAlert 60, by decide⟩ <|
      .single ⟨.received _ [] [⟨.BudgetAlert, 60 * second, false, none⟩]
        ⟨.AgendaReminder, 60 * second, false, none⟩ (by decide) (by decide), by decide⟩
  exact ⟨_, by decide, by decide, (shows_own_kind hrun).2⟩

/-! ### Past the count -/

/-- After `n` pushes counted at zero. -/
def crowded (n : ℕ) : Phone where
  clock := 0
  row := some (Pending.write ⟨some (.Only .AgendaReminder), min I32_MAX n, some (60 * second)⟩)
  pushes := List.replicate n ⟨.AgendaReminder, 60 * second, false, none⟩
  answers := []

theorem inFlight_crowded (n : ℕ) : (crowded n).inFlight = n := by
  have hflies : Sent.inFlight 0 ⟨.AgendaReminder, 60 * second, false, none⟩ = true := by decide
  rw [Phone.inFlight]
  exact (List.countP_replicate ..).trans (if_pos hflies)

theorem happens_crowded (n : ℕ) (hpos : 0 < n) : Happens (crowded n) (crowded (n + 1)) := by
  have hcount : 0 < min I32_MAX (n : ℤ) := by
    rw [I32_MAX]
    omega
  have hlive : Pending.live ⟨some (.Only .AgendaReminder), min I32_MAX n, some (60 * second)⟩ 0 = true :=
    live_iff.mpr ⟨hcount, 60 * second, rfl, by decide⟩
  have hnext : crowded (n + 1) = { crowded n with
      row := notePending (fun p => pendingAfterPush p .AgendaReminder 0 60) (crowded n).row
      pushes := (crowded n).pushes ++ [⟨.AgendaReminder, 0 + 60 * second, false, none⟩] } := by
    rw [crowded, crowded, notePending, Option.map_some, fromColumns_write (sound_of_pos hcount rfl),
      pendingAfterPush, if_neg (by rw [hlive]; simp), List.replicate_succ']
    have hsum : saturatingAdd (min I32_MAX n) 1 = min I32_MAX ((n + 1 : ℕ) : ℤ) := by
      rw [saturatingAdd, I32_MAX]
      omega
    simp [hsum]
  rw [hnext]
  exact .counted (crowded n) .AgendaReminder 60

theorem steps_crowded (n : ℕ) : ReflTransGen Happens (phone 0) (crowded (n + 1)) := by
  induction n with
  | zero => exact .single (.counted (phone 0) .AgendaReminder 60)
  | succ n ih => exact ih.tail (happens_crowded (n + 1) (Nat.succ_pos n))

/-- With 2³¹ pushes in flight, one fewer is recorded. -/
theorem fewer_recorded : ¬∀ (clock : ℤ) (s : Phone), ReflTransGen Happens (phone clock) s →
    ∀ c, s.row = some c → (s.inFlight : ℤ) ≤ c.pendingPushes := by
  intro h
  have hmore := h 0 _ (steps_crowded 2147483647) _ rfl
  rw [inFlight_crowded] at hmore
  exact absurd hmore (by decide)

end Home.Push
