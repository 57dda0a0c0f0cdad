import Mathlib.Data.List.Induction
import Mathlib.Data.Nat.Find
import Mathlib.Order.Bounds.Basic
import ManageOurHome.HttpGuard.Limits

/-! @src apps/http_guard/src/body.rs | layer:proof | family:request body

    The body of a request held to its bounds. A poll hands on what the inner body has; when it has nothing, the wait is
    judged and a timer armed for the next instant the verdict could change. A timer is never due early, and the clock
    never goes back: nothing else is asked of the runtime.

        chunk at 12 s   ── pending, timer at 15.000000001 s ──▶   nothing by then: cut -/

namespace Home.HttpGuard

/-- What the inner body answers a poll with: a frame, with the length of its data if it is one of data. -/
inductive Inner where
  | Frame (data : Option ℕ)
  | Error
  | End
  | Pending

inductive Answer where
  | Frame (data : Option ℕ)
  | Error
  | End
  | TimedOut (breach : Breach)
  | Pending
  deriving DecidableEq

/-- A poll, and what it finds: the instant it starts at and the one each turn of its loop is at, the inner body's
    answer, and whether the timer, set to a deadline in a turn, is due. -/
structure Poll where
  start : ℕ
  turn : ℕ → ℕ
  inner : Inner
  due : ℕ → ℕ → Bool
  forward : start ≤ turn 0 ∧ ∀ i, turn i ≤ turn (i + 1)
  notEarly : ∀ i deadline, due i deadline = true → deadline ≤ turn (i + 1)

/-- The bytes received are a `u64` that no body fills. -/
structure Clock where
  firstRead : ℕ
  lastChunk : ℕ
  received : ℕ
  deriving DecidableEq

/-- The timer is its deadline. -/
structure GuardedBody where
  limits : BodyReadLimits
  clock : Option Clock
  timer : Option ℕ
  tripped : Option Breach
  deriving DecidableEq

namespace GuardedBody

def new (limits : BodyReadLimits) : GuardedBody := ⟨limits, none, none, none⟩

/-- The loop of a poll, from its turn `i`; none when it takes more than `fuel` turns. -/
def wait (body : GuardedBody) (clock : Clock) (poll : Poll) : ℕ → ℕ → Option (Answer × GuardedBody)
  | 0, _ => none
  | fuel + 1, i =>
    let now := poll.turn i
    match body.limits.judge (now - clock.firstRead) (now - clock.lastChunk) clock.received with
    | .Breached breach => some (.TimedOut breach, { body with tripped := some breach, timer := none })
    | .Within recheckAt =>
      let deadline := clock.firstRead + recheckAt
      if poll.due i deadline then { body with timer := some deadline }.wait clock poll fuel (i + 1)
      else some (.Pending, { body with timer := some deadline })

def pollFrame (fuel : ℕ) (body : GuardedBody) (poll : Poll) : Option (Answer × GuardedBody) :=
  match body.tripped with
  | some breach => some (.TimedOut breach, body)
  | none =>
    let clock := body.clock.getD ⟨poll.start, poll.start, 0⟩
    match poll.inner with
    | .Frame (some data) =>
      some (.Frame (some data),
        { body with clock := some { clock with received := clock.received + data, lastChunk := poll.start } })
    | .Frame none => some (.Frame none, { body with clock := some clock })
    | .Error => some (.Error, { body with clock := some clock })
    | .End => some (.End, { body with clock := some clock })
    | .Pending => { body with clock := some clock }.wait clock poll fuel 0

/-- The body after some polls. -/
def run (fuel : ℕ) : GuardedBody → List Poll → Option GuardedBody
  | body, [] => some body
  | body, poll :: polls => (body.pollFrame fuel poll).bind fun answered => answered.2.run fuel polls

end GuardedBody

/-! ### What has arrived -/

/-- The data a poll receives, and when. -/
def Poll.chunk (poll : Poll) : Option (ℕ × ℕ) :=
  match poll.inner with
  | .Frame (some data) => some (poll.start, data)
  | _ => none

/-- When a body was first read, when its last chunk arrived and how much it has received, at the last of some polls. -/
def clockAt (polls : List Poll) (poll : Poll) : Clock :=
  let firstRead := (polls.head?.getD poll).start
  let chunks := polls.filterMap Poll.chunk
  ⟨firstRead, (chunks.getLast?.map Prod.fst).getD firstRead, (chunks.map Prod.snd).sum⟩

/-- The polls of a body, one after the other. -/
def InOrder (polls : List Poll) : Prop := polls.Pairwise fun p q => p.start ≤ q.start

/-- A body waiting since `clock` breaks a bound at `t`. -/
def BreaksAt (limits : BodyReadLimits) (clock : Clock) (t : ℕ) : Prop :=
  limits.Breaks (t - clock.firstRead) (t - clock.lastChunk) clock.received

variable {limits : BodyReadLimits} {polls : List Poll} {poll : Poll} {clock : Clock} {body : GuardedBody} {fuel i t : ℕ}

/-- A clock that has started, and not ahead of `now`. -/
structure Clock.Past (clock : Clock) (now : ℕ) : Prop where
  first : clock.firstRead ≤ clock.lastChunk
  last : clock.lastChunk ≤ now

theorem chunk_eq_some {p : Poll} {c : ℕ × ℕ} (h : p.chunk = some c) : c.1 = p.start := by
  unfold Poll.chunk at h
  split at h
  · rw [← Option.some.inj h]
  · cases h

theorem clockAt_past (h : InOrder (polls ++ [poll])) : (clockAt polls poll).Past poll.start := by
  obtain ⟨hpolls, -, hlast⟩ := List.pairwise_append.mp h
  have hpoll : ∀ p ∈ polls, p.start ≤ poll.start := fun p hp => hlast p hp poll (List.mem_singleton_self _)
  have hhead : ∀ p ∈ polls, (polls.head?.getD poll).start ≤ p.start := by
    intro p hp
    cases polls with
    | nil => cases hp
    | cons first rest =>
      rcases List.mem_cons.mp hp with rfl | hrest
      · exact le_rfl
      · exact (List.pairwise_cons.mp hpolls).1 p hrest
  have hfirst : (polls.head?.getD poll).start ≤ poll.start := by
    cases polls with
    | nil => exact le_rfl
    | cons first rest => exact hpoll first List.mem_cons_self
  cases hchunk : (polls.filterMap Poll.chunk).getLast? with
  | none =>
    have hclock : (clockAt polls poll).lastChunk = (polls.head?.getD poll).start := by
      rw [clockAt, hchunk]
      rfl
    exact ⟨hclock.ge, hclock.trans_le hfirst⟩
  | some c =>
    have hclock : (clockAt polls poll).lastChunk = c.1 := by
      rw [clockAt, hchunk]
      rfl
    obtain ⟨p, hp, hc⟩ := List.mem_filterMap.mp (List.mem_of_getLast? hchunk)
    rw [chunk_eq_some hc] at hclock
    exact ⟨hclock ▸ hhead p hp, hclock ▸ hpoll p hp⟩

theorem clockAt_concat (next : Poll) : clockAt (polls ++ [poll]) next =
    match poll.chunk with
    | some (start, data) =>
      { clockAt polls poll with received := (clockAt polls poll).received + data, lastChunk := start }
    | none => clockAt polls poll := by
  have hfirst : ((polls ++ [poll]).head?.getD next).start = (polls.head?.getD poll).start := by
    cases polls with
    | nil => rfl
    | cons first rest => rfl
  rw [clockAt, hfirst, List.filterMap_append, List.filterMap_cons]
  cases poll.chunk with
  | none => simp [clockAt]
  | some chunk => simp [clockAt]

/-! ### One poll -/

/-- The instant a verdict within bounds announces is the first at which the body, left waiting, breaks one. -/
theorem isLeast_of_within {recheckAt now : ℕ} (htotal : limits.total ≤ u64Max) (hpast : clock.Past now)
    (h : limits.judge (now - clock.firstRead) (now - clock.lastChunk) clock.received = .Within recheckAt) :
    now < clock.firstRead + recheckAt ∧
      IsLeast {t | clock.lastChunk ≤ t ∧ BreaksAt limits clock t} (clock.firstRead + recheckAt) := by
  obtain ⟨hfirst, hlast⟩ := hpast
  have hidle : now - clock.lastChunk ≤ now - clock.firstRead := Nat.sub_le_sub_left hfirst _
  obtain ⟨hlater, hbreaks⟩ := BodyReadLimits.breaks_iff_of_within htotal hidle h
  have hafter : ∀ t, now ≤ t → (BreaksAt limits clock t ↔ clock.firstRead + recheckAt ≤ t) := by
    intro t ht
    have hd := hbreaks (t - now)
    have helapsed : now - clock.firstRead + (t - now) = t - clock.firstRead := by omega
    have hidleFor : now - clock.lastChunk + (t - now) = t - clock.lastChunk := by omega
    rw [helapsed, hidleFor] at hd
    rw [BreaksAt, hd]
    omega
  refine ⟨by omega, ⟨by omega, (hafter _ (by omega)).mpr le_rfl⟩, fun t ht => ?_⟩
  rcases Nat.le_total now t with hle | hle
  · exact (hafter t hle).mp ht.2
  · -- what is broken by then is still broken now
    have hnow := ht.2.wait (now - t)
    have hlast := ht.1
    have helapsed : t - clock.firstRead + (now - t) = now - clock.firstRead := by omega
    have hidleFor : t - clock.lastChunk + (now - t) = now - clock.lastChunk := by omega
    rw [helapsed, hidleFor] at hnow
    exact absurd hnow (BodyReadLimits.within_iff.mp ⟨_, h⟩)

/-- A body that waits long enough breaks a bound. -/
theorem exists_isLeast (limits : BodyReadLimits) (clock : Clock) :
    ∃ t, IsLeast {t | clock.lastChunk ≤ t ∧ BreaksAt limits clock t} t := by
  classical
  have hexists : ∃ t, clock.lastChunk ≤ t ∧ BreaksAt limits clock t :=
    ⟨max clock.lastChunk (clock.firstRead + limits.total), le_max_left _ _, .inl (by omega)⟩
  exact ⟨Nat.find hexists, Nat.find_spec hexists, fun t ht => Nat.find_min' hexists ht⟩

/-- A bound broken stays broken. -/
theorem breaksAt_of_isLeast {now : ℕ} (hpast : clock.Past now)
    (hleast : IsLeast {t | clock.lastChunk ≤ t ∧ BreaksAt limits clock t} t) (hle : t ≤ now) :
    BreaksAt limits clock now := by
  have hlast := hleast.1.1
  have hfirst := hpast.first
  have hnow := hleast.1.2.wait (now - t)
  have helapsed : t - clock.firstRead + (now - t) = now - clock.firstRead := by omega
  have hidleFor : t - clock.lastChunk + (now - t) = now - clock.lastChunk := by omega
  rwa [helapsed, hidleFor] at hnow

/-- A wait is judged once, and once more if its timer is due: the body is cut from the first instant at which it breaks
    a bound, and until then the timer is armed at that instant. -/
theorem wait_exact (body : GuardedBody) (htotal : body.limits.total ≤ u64Max) (hpast : clock.Past poll.start)
    (hfuel : 2 ≤ fuel) (hleast : IsLeast {t | clock.lastChunk ≤ t ∧ BreaksAt body.limits clock t} t) :
    ∃ answer after, body.wait clock poll fuel 0 = some (answer, after) ∧
      ((answer = .Pending ∧ poll.turn 0 < t ∧ after.timer = some t ∧ after.tripped = body.tripped) ∨
        ((∃ breach, answer = .TimedOut breach ∧ after.tripped = some breach) ∧ t ≤ poll.turn 1 ∧
          (t ≤ poll.turn 0 ∨ poll.due 0 t = true))) := by
  obtain ⟨fuel, rfl⟩ := Nat.exists_eq_add_of_le' hfuel
  have hpast₀ : clock.Past (poll.turn 0) := ⟨hpast.first, hpast.last.trans poll.forward.1⟩
  have hforward := poll.forward.2 0
  rw [GuardedBody.wait]
  dsimp only
  cases hverdict : body.limits.judge (poll.turn 0 - clock.firstRead) (poll.turn 0 - clock.lastChunk) clock.received with
  | Breached breach =>
    have hbreaks : BreaksAt body.limits clock (poll.turn 0) := BodyReadLimits.breached_iff.mp ⟨breach, hverdict⟩
    have hle := hleast.2 ⟨hpast₀.last, hbreaks⟩
    exact ⟨_, _, rfl, .inr ⟨⟨breach, rfl, rfl⟩, hle.trans hforward, .inl hle⟩⟩
  | Within recheckAt =>
    obtain ⟨hlater, hdeadline⟩ := isLeast_of_within htotal hpast₀ hverdict
    obtain rfl := hleast.unique hdeadline
    dsimp only
    split
    · rename_i hdue
      have hreached := poll.notEarly 0 _ hdue
      have hpast₁ : clock.Past (poll.turn 1) := ⟨hpast.first, hpast₀.last.trans hforward⟩
      have hbreaks := breaksAt_of_isLeast hpast₁ hleast hreached
      obtain ⟨breach, hverdict'⟩ := BodyReadLimits.breached_iff.mpr hbreaks
      rw [GuardedBody.wait]
      dsimp only
      rw [hverdict']
      exact ⟨_, _, rfl, .inr ⟨⟨breach, rfl, rfl⟩, hreached, .inr hdue⟩⟩
    · exact ⟨_, _, rfl, .inl ⟨rfl, hlater, rfl, rfl⟩⟩

theorem GuardedBody.wait_keeps {answer : Answer} {after : GuardedBody}
    (h : body.wait clock poll fuel i = some (answer, after)) :
    after.limits = body.limits ∧ after.clock = body.clock := by
  induction fuel generalizing body i with
  | zero => cases h
  | succ fuel ih =>
    rw [GuardedBody.wait] at h
    dsimp only at h
    split at h
    · cases h
      exact ⟨rfl, rfl⟩
    · split at h
      · have hkept := ih h
        exact hkept
      · cases h
        exact ⟨rfl, rfl⟩

/-! ### Runs of polls -/

/-- What a body knows after some polls, unless it is cut: what has arrived. -/
structure Knows (limits : BodyReadLimits) (polls : List Poll) (body : GuardedBody) : Prop where
  limits : body.limits = limits
  clock : body.tripped = none → ∀ next : Poll, body.clock.getD ⟨next.start, next.start, 0⟩ = clockAt polls next

theorem knows_new (limits : BodyReadLimits) : Knows limits [] (GuardedBody.new limits) := ⟨rfl, fun _ _ => rfl⟩

/-- STEP: a poll ends, and the body knows of it. -/
theorem Knows.pollFrame (hknows : Knows limits polls body) (htotal : limits.total ≤ u64Max)
    (horder : InOrder (polls ++ [poll])) (hfuel : 2 ≤ fuel) :
    ∃ answer after, body.pollFrame fuel poll = some (answer, after) ∧ Knows limits (polls ++ [poll]) after := by
  obtain ⟨rfl, hclock⟩ := hknows
  cases htripped : body.tripped with
  | some breach =>
    refine ⟨.TimedOut breach, body, by rw [GuardedBody.pollFrame, htripped], rfl, fun h => ?_⟩
    rw [htripped] at h
    cases h
  | none =>
    have hpoll := hclock htripped poll
    rw [GuardedBody.pollFrame, htripped]
    dsimp only
    rw [hpoll]
    -- a clock that counts what the poll received
    have hcounted : ∀ {clock' : Clock}, (∀ next, clockAt (polls ++ [poll]) next = clock') →
        ∀ {body' : GuardedBody}, body'.limits = body.limits → body'.clock = some clock' →
          Knows body.limits (polls ++ [poll]) body' := by
      intro clock' hnext body' hlimits hbody
      exact ⟨hlimits, fun _ next => by rw [hbody, hnext]; rfl⟩
    cases hinner : poll.inner with
    | Frame data =>
      cases data with
      | some data =>
        have hchunk : poll.chunk = some (poll.start, data) := by rw [Poll.chunk, hinner]
        exact ⟨_, _, rfl, hcounted (fun next => by rw [clockAt_concat, hchunk]) rfl rfl⟩
      | none =>
        have hchunk : poll.chunk = none := by rw [Poll.chunk, hinner]
        exact ⟨_, _, rfl, hcounted (fun next => by rw [clockAt_concat, hchunk]) rfl rfl⟩
    | Error =>
      have hchunk : poll.chunk = none := by rw [Poll.chunk, hinner]
      exact ⟨_, _, rfl, hcounted (fun next => by rw [clockAt_concat, hchunk]) rfl rfl⟩
    | End =>
      have hchunk : poll.chunk = none := by rw [Poll.chunk, hinner]
      exact ⟨_, _, rfl, hcounted (fun next => by rw [clockAt_concat, hchunk]) rfl rfl⟩
    | Pending =>
      have hchunk : poll.chunk = none := by rw [Poll.chunk, hinner]
      obtain ⟨t, hleast⟩ := exists_isLeast body.limits (clockAt polls poll)
      obtain ⟨answer, after, hwait, -⟩ := wait_exact
        { body with clock := some (clockAt polls poll), tripped := none } htotal (clockAt_past horder) hfuel hleast
      obtain ⟨hlimits, hafter⟩ := GuardedBody.wait_keeps hwait
      exact ⟨answer, after, hwait, hcounted (fun next => by rw [clockAt_concat, hchunk]) hlimits hafter⟩

theorem GuardedBody.run_append (before after : List Poll) :
    body.run fuel (before ++ after) = (body.run fuel before).bind fun b => b.run fuel after := by
  induction before generalizing body with
  | nil => rfl
  | cons poll before ih =>
    rw [List.cons_append, GuardedBody.run, GuardedBody.run, Option.bind_assoc]
    exact congrArg _ (funext fun answered => ih)

/-- RUN: every poll of a body ends. -/
theorem exists_run (htotal : limits.total ≤ u64Max) (horder : InOrder polls) (hfuel : 2 ≤ fuel) :
    ∃ body, (GuardedBody.new limits).run fuel polls = some body ∧ Knows limits polls body := by
  induction polls using List.reverseRecOn with
  | nil => exact ⟨_, rfl, knows_new limits⟩
  | append_singleton polls poll ih =>
    obtain ⟨body, hrun, hknows⟩ := ih (List.pairwise_append.mp horder).1
    obtain ⟨answer, after, hpoll, hafter⟩ := hknows.pollFrame htotal horder hfuel
    refine ⟨after, ?_, hafter⟩
    rw [GuardedBody.run_append, hrun, Option.bind_some, GuardedBody.run, hpoll]
    rfl

/-- CORRECT: the instant a verdict announces is the first at which a body left waiting is not within bounds. So every
    poll ends, and one that finds nothing leaves the timer armed at the first instant at which the body breaks a bound,
    or cuts it, that instant being reached and not before. -/
theorem cut_at_first_breach (limits : BodyReadLimits) (htotal : limits.total ≤ u64Max) :
    (∀ elapsed idleFor received recheckAt, idleFor ≤ elapsed →
      limits.judge elapsed idleFor received = .Within recheckAt →
        elapsed < recheckAt ∧
          (∀ d < recheckAt - elapsed, ∃ later, limits.judge (elapsed + d) (idleFor + d) received = .Within later) ∧
          ∃ breach, limits.judge (elapsed + (recheckAt - elapsed)) (idleFor + (recheckAt - elapsed)) received =
            .Breached breach) ∧
      ∀ polls poll fuel, InOrder (polls ++ [poll]) → 2 ≤ fuel →
        ∃ body answer after, (GuardedBody.new limits).run fuel polls = some body ∧
          body.pollFrame fuel poll = some (answer, after) ∧
          (body.tripped = none → poll.inner = .Pending →
            ∃ t, IsLeast {t | (clockAt polls poll).lastChunk ≤ t ∧ BreaksAt limits (clockAt polls poll) t} t ∧
              ((answer = .Pending ∧ poll.turn 0 < t ∧ after.timer = some t) ∨
                ((∃ breach, answer = .TimedOut breach) ∧ t ≤ poll.turn 1 ∧
                  (t ≤ poll.turn 0 ∨ poll.due 0 t = true)))) := by
  constructor
  · intro elapsed idleFor received recheckAt hidle h
    obtain ⟨hlater, hbreaks⟩ := BodyReadLimits.breaks_iff_of_within htotal hidle h
    refine ⟨hlater, fun d hd => ?_, ?_⟩
    · rw [BodyReadLimits.within_iff, hbreaks]
      omega
    · rw [BodyReadLimits.breached_iff, hbreaks]
      omega
  · intro polls poll fuel horder hfuel
    obtain ⟨body, hrun, hknows⟩ := exists_run htotal (List.pairwise_append.mp horder).1 hfuel
    obtain ⟨answer, after, hpoll, -⟩ := hknows.pollFrame htotal horder hfuel
    refine ⟨body, answer, after, hrun, hpoll, fun htripped hpending => ?_⟩
    obtain ⟨rfl, hclock⟩ := hknows
    obtain ⟨t, hleast⟩ := exists_isLeast body.limits (clockAt polls poll)
    obtain ⟨answer', after', hwait, hexact⟩ := wait_exact
      { body with clock := some (clockAt polls poll), tripped := none } htotal (clockAt_past horder) hfuel hleast
    rw [GuardedBody.pollFrame, htripped] at hpoll
    dsimp only at hpoll
    rw [hclock htripped poll, hpending] at hpoll
    obtain ⟨rfl, rfl⟩ := Prod.mk.inj (Option.some.inj (hwait.symm.trans hpoll))
    refine ⟨t, hleast, hexact.imp (fun h => ⟨h.1, h.2.1, h.2.2.1⟩) fun h => ⟨?_, h.2⟩⟩
    obtain ⟨breach, hanswer, -⟩ := h.1
    exact ⟨breach, hanswer⟩

theorem cut_at_first_breach_production : BodyReadLimits.PRODUCTION.total ≤ u64Max ∧
    ∀ elapsed idleFor received recheckAt, idleFor ≤ elapsed →
      BodyReadLimits.PRODUCTION.judge elapsed idleFor received = .Within recheckAt → elapsed < recheckAt :=
  ⟨by decide, fun elapsed idleFor received recheckAt hidle h =>
    ((cut_at_first_breach .PRODUCTION (by decide)).1 elapsed idleFor received recheckAt hidle h).1⟩

end Home.HttpGuard
