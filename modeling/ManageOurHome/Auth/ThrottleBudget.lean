import ManageOurHome.Auth.ThrottleBounds

/-! @src apps/api/src/auth/throttle.rs | layer:proof | family:rate-limit

    What a pair is allowed over a run. A pair's row counts a group of attempts: each of the group is within its first
    one's window, the last of a full group locks the pair, and the next group starts when the window, or the lock, is
    over.

        ├─────────── WINDOW ──────────┤
        1   2  3                10 ─────── LOCKOUT ───────▶ 1   2 …
            one group, full     locked, every call refused   the next one -/

namespace Home.Throttle

open FiniteMap

namespace Entry

variable {e : Entry} {now : ℤ}

/-- A stale row starts afresh. -/
theorem admission_stale (h : e.isStale now = true) : e.admission now = (first now, .Allow) := by
  have hlocked : e.lockedAt now = none := by
    rw [isStale, Bool.and_eq_true, Option.isNone_iff_eq_none] at h
    exact h.1
  rw [admission, hlocked]
  simp [h, fresh, first, MAX_FAILURES]

/-- A row that is neither locked nor stale counts one more attempt. -/
theorem admission_open (hlocked : e.lockedAt now = none) (h : e.isStale now = false) : e.admission now =
    (⟨e.attempts + 1, e.windowStart, if MAX_FAILURES ≤ e.attempts + 1 then some (now + LOCKOUT) else e.lockedUntil⟩,
      .Allow) := by
  rw [admission, hlocked]
  simp only [h, Bool.false_eq_true, if_false]
  split
  · rfl
  · rfl

end Entry

/-! ### Groups -/

/-- Attempts allowed one after the other: no more than a pair may make, each within the first one's window. -/
structure Group where
  first : ℤ
  later : List ℤ
  few : later.length < MAX_FAILURES
  within : ∀ x ∈ later, first ≤ x ∧ x ≤ first + WINDOW

namespace Group

def times (g : Group) : List ℤ := g.first :: g.later

/-- The last attempt. -/
def last (g : Group) : ℤ := g.later.getLastD g.first

/-- As many attempts as a pair may make. -/
def Full (g : Group) : Prop := g.times.length = MAX_FAILURES

instance (g : Group) : Decidable g.Full := inferInstanceAs (Decidable (_ = _))

/-- The row that counts a group. -/
def entry (g : Group) : Entry := ⟨g.times.length, g.first, if g.Full then some (g.last + LOCKOUT) else none⟩

/-- Time enough has passed for another group to start. -/
structure Over (g : Group) (now : ℤ) : Prop where
  window : g.first + WINDOW ≤ now
  lockout : g.Full → g.last + LOCKOUT ≤ now
  unlocked : ¬g.Full → g.first + WINDOW < now

theorem Over.mono {g : Group} {now later : ℤ} (h : g.Over now) (hle : now ≤ later) : g.Over later where
  window := h.window.trans hle
  lockout := fun hfull => (h.lockout hfull).trans hle
  unlocked := fun hfree => (h.unlocked hfree).trans_le hle

theorem last_mem (g : Group) : g.first ≤ g.last ∧ g.last ≤ g.first + WINDOW := by
  rw [last]
  rcases List.eq_nil_or_concat g.later with hnil | ⟨init, x, hlater⟩
  · rw [hnil, List.getLastD_nil]
    exact ⟨le_refl _, le_add_of_nonneg_right (by decide)⟩
  · have hx : x ∈ g.later := by rw [hlater]; simp
    have hlast : g.later.getLastD g.first = x := by rw [hlater]; simp
    rw [hlast]
    exact g.within x hx

/-- The group of one attempt. -/
def start (now : ℤ) : Group := ⟨now, [], by decide, by simp⟩

/-- One more attempt. -/
def push (g : Group) (now : ℤ) (hfree : ¬g.Full) (hnow : g.first ≤ now ∧ now ≤ g.first + WINDOW) : Group where
  first := g.first
  later := g.later ++ [now]
  few := by
    have hlt := g.few
    rw [Full, times, List.length_cons] at hfree
    rw [List.length_append, List.length_singleton]
    omega
  within := by
    intro x hx
    rcases List.mem_append.mp hx with hx | hx
    · exact g.within x hx
    · exact List.mem_singleton.mp hx ▸ hnow

@[simp] theorem last_start (now : ℤ) : (start now).last = now := rfl

variable {g : Group} {now : ℤ}

@[simp] theorem last_push {hfree : ¬g.Full} {hnow : g.first ≤ now ∧ now ≤ g.first + WINDOW} :
    (g.push now hfree hnow).last = now := by
  simp [push, last]

theorem lockedAt_entry : g.entry.lockedAt now = if g.Full ∧ now < g.last + LOCKOUT then some (g.last + LOCKOUT) else none := by
  rw [Entry.lockedAt, entry]
  by_cases hfull : g.Full
  · simp [hfull, Option.filter]
  · simp [hfull]

/-- A row is stale when its group is over. -/
theorem isStale_entry (hnow : g.last ≤ now) : g.entry.isStale now = true ↔ g.Over now := by
  obtain ⟨hfirst, hlast⟩ := g.last_mem
  have hsince : since now g.entry.windowStart = now - g.first := by
    exact since_of_le (show g.first ≤ now by omega)
  have hwindow : WINDOW = LOCKOUT := rfl
  rw [Entry.isStale, lockedAt_entry, hsince]
  by_cases hfull : g.Full
  · have hsome : g.entry.lockedUntil.isSome = true := by simp [entry, hfull]
    rw [hsome, Bool.true_or, Bool.and_true]
    constructor
    · intro hnone
      have hle : ¬(g.Full ∧ now < g.last + LOCKOUT) := fun hlt => by simp [hlt] at hnone
      have hpast : g.last + LOCKOUT ≤ now := not_lt.mp fun hlt => hle ⟨hfull, hlt⟩
      exact ⟨by omega, fun _ => hpast, fun hfree => absurd hfull hfree⟩
    · intro hover
      have := hover.lockout hfull
      rw [if_neg (by omega)]
      rfl
  · have hnone : g.entry.lockedUntil.isSome = false := by simp [entry, hfull]
    rw [hnone, Bool.false_or, if_neg (fun h => hfull h.1), Option.isNone_none, Bool.true_and, decide_eq_true_iff]
    constructor
    · intro hlt
      exact ⟨by omega, fun h => absurd h hfull, fun _ => by omega⟩
    · intro hover
      have := hover.unlocked hfull
      omega

/-- ATTEMPT: on the row of a group, an attempt is refused while it is locked, starts another group once it is over, and
    is one more of it otherwise. -/
theorem admission_entry (hnow : g.last ≤ now) :
    (∃ r, g.entry.admission now = (g.entry, .Locked r)) ∨
    (g.Over now ∧ g.entry.admission now = ((start now).entry, .Allow)) ∨
    ∃ hfree hin, g.entry.admission now = ((g.push now hfree hin).entry, .Allow) := by
  obtain ⟨hfirst, hlast⟩ := g.last_mem
  cases hlocked : g.entry.lockedAt now with
  | some until_ =>
    refine .inl ⟨since until_ now, ?_⟩
    rw [Entry.admission, hlocked]
  | none =>
    right
    by_cases hover : g.Over now
    · exact .inl ⟨hover, Entry.admission_stale ((isStale_entry hnow).mpr hover)⟩
    · have hfree : ¬g.Full := by
        intro hfull
        rw [lockedAt_entry] at hlocked
        have hpast : g.last + LOCKOUT ≤ now := not_lt.mp fun hlt => by simp [hfull, hlt] at hlocked
        have hwindow : WINDOW = LOCKOUT := rfl
        exact hover ⟨by omega, fun _ => hpast, fun h => absurd hfull h⟩
      have hin : g.first ≤ now ∧ now ≤ g.first + WINDOW := by
        refine ⟨hfirst.trans hnow, not_lt.mp fun hlt => hover ⟨hlt.le, fun h => absurd h hfree, fun _ => hlt⟩⟩
      have hstale : g.entry.isStale now = false := by
        rw [← Bool.not_eq_true, isStale_entry hnow]
        exact hover
      refine .inr ⟨hfree, hin, ?_⟩
      rw [Entry.admission_open hlocked hstale]
      have hlen : (g.push now hfree hin).times.length = g.times.length + 1 := by simp [push, times]
      have hfew : g.times.length + 1 ≤ MAX_FAILURES := by
        have := g.few
        rw [Full, times, List.length_cons] at hfree
        rw [times, List.length_cons]
        omega
      have hlock : (if MAX_FAILURES ≤ g.times.length + 1 then some (now + LOCKOUT) else none) =
          if (g.push now hfree hin).Full then some ((g.push now hfree hin).last + LOCKOUT) else none := by
        have hfull : (g.push now hfree hin).Full ↔ g.times.length + 1 = MAX_FAILURES := by
          unfold Full
          rw [hlen]
        rw [last_push]
        by_cases hten : g.times.length + 1 = MAX_FAILURES
        · rw [if_pos (hfull.mpr hten), if_pos hten.ge]
        · rw [if_neg (fun h => hten (hfull.mp h)), if_neg (by omega)]
      have hentry : (g.push now hfree hin).entry =
          ⟨g.times.length + 1, g.first, if MAX_FAILURES ≤ g.times.length + 1 then some (now + LOCKOUT) else none⟩ := by
        rw [hlock, ← hlen]
        rfl
      have hunlocked : g.entry.lockedUntil = none := if_neg hfree
      rw [hunlocked, hentry]
      rfl

end Group

/-! ### Runs -/

/-- A call of `Table::admit`, and the order the maps iterate in when it is decided. -/
structure Call (A E : Type*) where
  order : Listing (A × E)
  ip : A
  email : E
  now : ℤ

variable {A E : Type*} [DecidableEq A] [DecidableEq E]

def Call.key (c : Call A E) : A × E := (c.ip, c.email)

namespace Table

/-- `Table::admit`, on a call. -/
def decided (t : Table A E) (c : Call A E) : Table A E × Decision := t.admission c.order c.ip c.email c.now

/-- The table after some calls. -/
def after (t : Table A E) (calls : List (Call A E)) : Table A E := calls.foldl (fun t c => (t.decided c).1) t

/-- When a pair's calls are allowed. -/
def allowed (p : A × E) : Table A E → List (Call A E) → List ℤ
  | _, [] => []
  | t, c :: calls =>
    (if c.key = p ∧ (t.decided c).2 = .Allow then [c.now] else []) ++ allowed p (t.decided c).1 calls

/-- The pair is neither removed nor evicted: a call may take its row only once it counts for nothing. -/
def Keeps (p : A × E) : Table A E → List (Call A E) → Prop
  | _, [] => True
  | t, c :: calls =>
    (∀ e, t.rows.get p = some e → live c.now e = true → (t.decided c).1.rows.get p ≠ none) ∧
      Keeps p (t.decided c).1 calls

/-- What a call can do to a pair's row, and answer it. -/
inductive Move (now : ℤ) : Option Entry → Option Decision → Option Entry → Prop
  | counted (e : Entry) : Move now (some e) (some (e.admission now).2) (some (e.admission now).1)
  | refused (r : ℤ) : Move now none (some (.Locked r)) none
  | entered : Move now none (some .Allow) (some (Entry.first now))
  | still (row : Option Entry) : Move now row none row
  | gone (e : Entry) : Move now (some e) none none

theorem move {t : Table A E} (h : t.Inv) (c : Call A E) (p : A × E) : Move c.now (t.rows.get p)
    (if c.key = p then some (t.decided c).2 else none) ((t.decided c).1.rows.get p) := by
  obtain ⟨order, ip, email, now⟩ := c
  rw [decided, Call.key]
  dsimp only
  cases hg : t.get ip email with
  | some e =>
    rw [admission_held order hg]
    have hrows : ({ t with byIp := put t.byIp ip email (e.admission now).1 } : Table A E).rows =
        t.rows.set (ip, email) (some (e.admission now).1) := flat_put ..
    rw [hrows, FMap.get_set]
    by_cases hp : (ip, email) = p
    · subst hp
      rw [if_pos rfl, if_pos rfl, get_rows, hg]
      exact .counted e
    · rw [if_neg hp, if_neg (Ne.symm hp)]
      exact .still _
  | none =>
    have hr := inv_reclaimAddress h ip now
    -- what is left of any other row once the address's stale pairs are reclaimed
    have hreclaimed : ∀ e, (t.reclaimAddress ip now).rows.get p = some e → t.rows.get p = some e := by
      intro e he
      rw [rows_reclaimAddress] at he
      exact (FMap.get_filter_eq_some.mp he).1
    have hleft : ∀ row, (∀ e, row = some e → t.rows.get p = some e) → Move now (t.rows.get p) none row := by
      intro row hrow
      cases row with
      | some e =>
        rw [hrow e rfl]
        exact .still _
      | none =>
        cases t.rows.get p with
        | none => exact .still _
        | some e => exact .gone e
    by_cases hshare : MAX_PAIRS_PER_IP ≤ (t.reclaimAddress ip now).heldBy ip
    · rw [admission_refused order hg hshare]
      by_cases hp : (ip, email) = p
      · subst hp
        rw [if_pos rfl, get_rows, get_rows, hg, get_reclaimAddress_of_none now hg]
        exact .refused _
      · rw [if_neg hp]
        exact hleft _ hreclaimed
    · rw [admission_new order hg (Nat.lt_of_not_le hshare)]
      obtain ⟨-, -, hmade⟩ := makeRoom_spec order hr.counted hr.ceiling now
      have hrows : (⟨put ((t.reclaimAddress ip now).makeRoom order now).byIp ip email (Entry.first now),
          ((t.reclaimAddress ip now).makeRoom order now).total + 1⟩ : Table A E).rows =
            ((t.reclaimAddress ip now).makeRoom order now).rows.set (ip, email) (some (Entry.first now)) := flat_put ..
      rw [hrows, FMap.get_set]
      by_cases hp : (ip, email) = p
      · subst hp
        rw [if_pos rfl, if_pos rfl, get_rows, hg]
        exact .entered
      · rw [if_neg hp, if_neg (Ne.symm hp)]
        exact hleft _ fun e he => hreclaimed e (get_makeRoom hmade he)

/-! ### The history of a row -/

/-- The attempts of groups, the newest group first. -/
def times (history : List Group) : List ℤ := history.reverse.flatMap Group.times

/-- Each group starts once the one before it is over. -/
def Apart (history : List Group) : Prop := history.IsChain fun g before => before.Over g.first

/-- What a pair's row says at a time: nothing has been allowed, or it counts the newest group, or it has gone since that
    one is over. -/
inductive Records (now : ℤ) : List Group → Option Entry → Prop
  | nothing : Records now [] none
  | counting (g : Group) (before : List Group) (apart : Apart (g :: before)) (past : g.last ≤ now) :
      Records now (g :: before) (some g.entry)
  | swept (g : Group) (before : List Group) (apart : Apart (g :: before)) (past : g.Over now) :
      Records now (g :: before) none

theorem Records.mono {history : List Group} {row : Option Entry} {now later : ℤ} (h : Records now history row)
    (hle : now ≤ later) : Records later history row := by
  cases h with
  | nothing => exact .nothing
  | counting g before hapart hpast => exact .counting g before hapart (hpast.trans hle)
  | swept g before hapart hover => exact .swept g before hapart (hover.mono hle)

theorem Records.apart {history : List Group} {row : Option Entry} {now : ℤ} (h : Records now history row) :
    Apart history := by
  cases h with
  | nothing => exact .nil
  | counting g before hapart => exact hapart
  | swept g before hapart => exact hapart

theorem times_cons (g : Group) (before : List Group) : times (g :: before) = times before ++ g.times := by
  rw [times, times, List.reverse_cons, List.flatMap_append, List.flatMap_singleton]

/-- STEP: a call that takes no row that counts keeps the history, longer by one attempt when it is allowed. -/
theorem records_move {history : List Group} {now : ℤ} {row row' : Option Entry} {d : Option Decision}
    (h : Records now history row) (hmove : Move now row d row')
    (hkept : ∀ e, row = some e → live now e = true → row' ≠ none) :
    ∃ history', Records now history' row' ∧ times history' = times history ++ if d = some .Allow then [now] else [] := by
  have hstart : ∀ g before, Apart (g :: before) → g.Over now →
      ∃ history', Records now history' (some (Entry.first now)) ∧ times history' = times (g :: before) ++ [now] := by
    intro g before hapart hover
    refine ⟨Group.start now :: g :: before, .counting _ _ (.cons_cons hover hapart) (le_refl _), ?_⟩
    rw [times_cons]
    rfl
  cases hmove with
  | counted e =>
    generalize hrow : some e = row at h
    cases h with
    | nothing => exact absurd hrow (by simp)
    | swept g before hapart hover => exact absurd hrow (by simp)
    | counting g before hapart hpast =>
      obtain rfl := Option.some.inj hrow
      rcases Group.admission_entry hpast with ⟨r, heq⟩ | ⟨hover, heq⟩ | ⟨hfree, hin, heq⟩
      · rw [heq]
        exact ⟨g :: before, .counting g before hapart hpast, by simp⟩
      · rw [heq, if_pos rfl]
        exact hstart g before hapart hover
      · rw [heq, if_pos rfl]
        refine ⟨g.push now hfree hin :: before, .counting _ _ ?_ (by simp), ?_⟩
        · -- the group starts where it did
          cases before with
          | nil => exact .singleton _
          | cons f before => exact List.isChain_cons_cons.mpr (List.isChain_cons_cons.mp hapart)
        · rw [times_cons, times_cons, List.append_assoc]
          rfl
  | refused r => exact ⟨history, h, by simp⟩
  | entered =>
    generalize hrow : none = row at h
    cases h with
    | nothing => exact ⟨[Group.start now], .counting _ _ (.singleton _) (le_refl _), rfl⟩
    | counting g before hapart hpast => exact absurd hrow (by simp)
    | swept g before hapart hover => exact hstart g before hapart hover
  | still => exact ⟨history, h, by simp⟩
  | gone e =>
    generalize hrow : some e = row at h
    cases h with
    | nothing => exact absurd hrow (by simp)
    | swept g before hapart hover => exact absurd hrow (by simp)
    | counting g before hapart hpast =>
      obtain rfl := Option.some.inj hrow
      -- what goes is stale
      have hstale : g.entry.isStale now = true := by
        by_contra hlive
        rw [Bool.not_eq_true] at hlive
        exact hkept g.entry rfl (by rw [live, hlive]; rfl) rfl
      exact ⟨g :: before, .swept g before hapart ((Group.isStale_entry hpast).mp hstale), by simp⟩

/-- Calls made in order, none before a time. -/
def Since (now : ℤ) (calls : List (Call A E)) : Prop := (now :: calls.map Call.now).IsChain (· ≤ ·)

/-- RUN: the history at the end is that at the start and what was allowed since. -/
theorem records_run {p : A × E} {t : Table A E} {calls : List (Call A E)} {history : List Group} {now : ℤ}
    (hinv : t.Inv) (h : Records now history (t.rows.get p)) (hsince : Since now calls) (hkept : t.Keeps p calls) :
    ∃ history' now', Records now' history' ((t.after calls).rows.get p) ∧
      times history' = times history ++ t.allowed p calls := by
  induction calls generalizing t history now with
  | nil => exact ⟨history, now, h, (List.append_nil _).symm⟩
  | cons c calls ih =>
    obtain ⟨hle, hsince⟩ := List.isChain_cons_cons.mp hsince
    obtain ⟨history₁, h₁, htimes₁⟩ := records_move (h.mono hle) (move hinv c p) hkept.1
    obtain ⟨history₂, now₂, h₂, htimes₂⟩ := ih (inv_admission hinv _ _ _ _) h₁ hsince hkept.2
    refine ⟨history₂, now₂, h₂, ?_⟩
    rw [htimes₂, htimes₁, List.append_assoc, allowed]
    congr 2
    by_cases hp : c.key = p
    · simp [hp]
    · simp [hp]

/-! ### Locks -/

/-- Writing a row it has changes nothing of a table. -/
theorem put_self {t : Table A E} {ip : A} {email : E} {e : Entry} (h : t.get ip email = some e) :
    put t.byIp ip email e = t.byIp := by
  obtain ⟨pairs, hpairs, hget⟩ := Option.bind_eq_some_iff.mp h
  refine FMap.ext fun a => ?_
  rw [put, FMap.get_set]
  split
  · rename_i ha
    subst ha
    rw [FMap.group, hpairs, Option.getD_some]
    refine congrArg some (FMap.ext fun f => ?_)
    rw [FMap.get_set]
    split
    · rename_i hf
      rw [hf, hget]
    · rfl
  · rfl

/-- A held pair is decided on its own row. -/
theorem decided_held {t : Table A E} {c : Call A E} {e : Entry} (h : t.rows.get c.key = some e) : t.decided c =
    ({ t with byIp := put t.byIp c.ip c.email (e.admission c.now).1 }, (e.admission c.now).2) :=
  admission_held c.order h c.now

/-- LOCKED: a call on a locked pair is refused for what is left of the lock, and changes nothing. -/
theorem decided_locked {t : Table A E} {c : Call A E} {e : Entry} {until_ : ℤ} (h : t.rows.get c.key = some e)
    (hlocked : e.lockedAt c.now = some until_) : t.decided c = (t, .Locked (until_ - c.now)) := by
  have hlt : c.now < until_ := of_decide_eq_true (Option.filter_eq_some_iff.mp hlocked).2
  have hadmission : e.admission c.now = (e, .Locked (until_ - c.now)) := by
    rw [Entry.admission, hlocked]
    exact congrArg (fun r => (e, Decision.Locked r)) (since_of_le hlt.le)
  have hput : put t.byIp c.ip c.email e = t.byIp := put_self h
  rw [decided_held h, hadmission]
  dsimp only
  rw [hput]

/-- A refused call found its pair, which was held, locked. -/
theorem lockedAt_of_refused {t : Table A E} {c : Call A E} {e : Entry} {r : ℤ} (h : t.rows.get c.key = some e)
    (hrefused : (t.decided c).2 = .Locked r) : e.lockedUntil = some (c.now + r) ∧ 0 < r := by
  cases hlocked : e.lockedAt c.now with
  | none =>
    have hallowed : (e.admission c.now).2 = .Allow := by rw [Entry.admission, hlocked]
    rw [decided_held h, hallowed] at hrefused
    exact absurd hrefused (by simp)
  | some until_ =>
    obtain ⟨huntil, hlt⟩ := Option.filter_eq_some_iff.mp hlocked
    have hlt : c.now < until_ := of_decide_eq_true hlt
    rw [decided_locked h hlocked] at hrefused
    obtain rfl : until_ - c.now = r := Decision.Locked.inj hrefused
    rw [add_sub_cancel]
    exact ⟨huntil, by omega⟩

/-- RUN: a locked row stays what it is while it is locked, and until the pair is called again. -/
theorem row_of_locked {p : A × E} {t : Table A E} {mid rest : List (Call A E)} {d : Call A E} {e : Entry}
    {until_ now : ℤ} (hinv : t.Inv) (hsince : Since now (mid ++ d :: rest)) (hkept : t.Keeps p (mid ++ d :: rest))
    (he : e.lockedUntil = some until_) (hrow : t.rows.get p = some e ∨ t.rows.get p = none ∧ until_ ≤ now)
    (hlocked : ∀ x ∈ mid, x.key = p → x.now < until_) :
    (t.after mid).rows.get p = some e ∨ (t.after mid).rows.get p = none ∧ until_ ≤ d.now := by
  induction mid generalizing t now with
  | nil =>
    have hle : now ≤ d.now := (List.isChain_cons_cons.mp hsince).1
    exact hrow.imp_right fun h => ⟨h.1, h.2.trans hle⟩
  | cons c mid ih =>
    obtain ⟨hle, hsince⟩ := List.isChain_cons_cons.mp hsince
    refine ih (inv_admission hinv _ _ _ _) hsince hkept.2 ?_ fun x hx => hlocked x (List.mem_cons_of_mem c hx)
    have hstep := move hinv c p
    generalize hrow₁ : (t.decided c).1.rows.get p = row₁ at hstep
    rcases hrow with hrow | ⟨hrow, hpast⟩
    · by_cases hp : c.key = p
      · -- the pair's own call finds it locked
        subst hp
        have hat : e.lockedAt c.now = some until_ :=
          Option.filter_eq_some_iff.mpr ⟨he, decide_eq_true (hlocked c List.mem_cons_self rfl)⟩
        rw [← hrow₁, decided_locked hrow hat]
        exact .inl hrow
      · rw [if_neg hp, hrow] at hstep
        cases hstep with
        | still => exact .inl rfl
        | gone =>
          refine .inr ⟨rfl, not_lt.mp fun hlt => hkept.1 e hrow ?_ hrow₁⟩
          have hat : e.lockedAt c.now = some until_ := Option.filter_eq_some_iff.mpr ⟨he, decide_eq_true hlt⟩
          rw [live, Entry.isStale, hat]
          rfl
    · have hp : c.key ≠ p := fun hp => absurd (hlocked c List.mem_cons_self hp) (by omega)
      rw [if_neg hp, hrow] at hstep
      cases hstep with
      | still => exact .inr ⟨rfl, hpast.trans hle⟩

/-- Calls made in order. -/
def InOrder (calls : List (Call A E)) : Prop := (calls.map Call.now).IsChain (· ≤ ·)

/-- A lock says how long it lasts: a call changes nothing, each call of the pair before the end is refused for what is
    left, and its first one from then on is allowed if its row is still there. -/
structure Exact (t : Table A E) (c : Call A E) (retryAfter : ℤ) (later : List (Call A E)) : Prop where
  unchanged : (t.decided c).1 = t
  lasting : 0 < retryAfter
  refused : ∀ mid d rest, later = mid ++ d :: rest → d.key = c.key → d.now < c.now + retryAfter →
    ((t.decided c).1.after mid).decided d = ((t.decided c).1.after mid, .Locked (c.now + retryAfter - d.now))
  allowed : ∀ mid d rest, later = mid ++ d :: rest → d.key = c.key → c.now + retryAfter ≤ d.now →
    (∀ x ∈ mid, x.key = c.key → x.now < c.now + retryAfter) → ((t.decided c).1.after mid).rows.get c.key ≠ none →
    (((t.decided c).1.after mid).decided d).2 = .Allow

theorem exact {t : Table A E} {c : Call A E} {later : List (Call A E)} {e : Entry} {r : ℤ} (hinv : t.Inv)
    (horder : InOrder (c :: later)) (hkept : t.Keeps c.key (c :: later)) (hrow : t.rows.get c.key = some e)
    (hrefused : (t.decided c).2 = .Locked r) : t.Exact c r later := by
  obtain ⟨huntil, hpos⟩ := lockedAt_of_refused hrow hrefused
  have hat : ∀ x : Call A E, x.now < c.now + r → e.lockedAt x.now = some (c.now + r) := fun x hx =>
    Option.filter_eq_some_iff.mpr ⟨huntil, decide_eq_true hx⟩
  have hsame : (t.decided c).1 = t := by rw [decided_locked hrow (hat c (by omega))]
  have hkept' : t.Keeps c.key later := by
    have := hkept.2
    rwa [hsame] at this
  refine { unchanged := hsame, lasting := hpos, refused := ?_, allowed := ?_ }
  · rintro mid d rest rfl hkey hlt
    have hbefore : ∀ x ∈ mid, x.now ≤ d.now := by
      intro x hx
      have hpairwise := List.isChain_iff_pairwise.mp horder
      rw [List.map_cons, List.map_append, List.pairwise_cons, List.pairwise_append] at hpairwise
      exact hpairwise.2.2.2 x.now (List.mem_map_of_mem hx) d.now (by simp)
    rw [hsame]
    rcases row_of_locked hinv horder hkept' huntil (.inl hrow) fun x hx _ => (hbefore x hx).trans_lt hlt with
      hrow' | ⟨-, hpast⟩
    · exact decided_locked (hkey ▸ hrow') (hat d hlt)
    · exact absurd hlt (by omega)
  · rintro mid d rest rfl hkey hle hlocked hheld
    rw [hsame] at hheld ⊢
    rcases row_of_locked hinv horder hkept' huntil (.inl hrow) hlocked with hrow' | ⟨hgone, -⟩
    · have hnone : e.lockedAt d.now = none := by
        rw [Entry.lockedAt, huntil, Option.filter_eq_none_iff]
        intro u hu
        obtain rfl := Option.some.inj hu
        simpa using hle
      rw [decided_held (hkey ▸ hrow'), Entry.admission, hnone]
    · exact absurd hgone hheld

/-- What holds of a run holds of the rest of it. -/
theorem run_append {p : A × E} {t : Table A E} {before later : List (Call A E)} (hinv : t.Inv)
    (horder : InOrder (before ++ later)) (hkept : t.Keeps p (before ++ later)) :
    (t.after before).Inv ∧ InOrder later ∧ (t.after before).Keeps p later := by
  induction before generalizing t with
  | nil => exact ⟨hinv, horder, hkept⟩
  | cons c before ih => exact ih (inv_admission hinv _ _ _ _) (List.IsChain.of_cons horder) hkept.2

/-- CORRECT: what a pair is allowed in a run comes in groups, each of no more attempts than a pair may make and within its
    first one's window, and each once the one before it is over; while it is locked its calls are refused, and the lock
    is exact. -/
theorem budget_bounded {t : Table A E} (hinv : t.Inv) {p : A × E} (hnew : t.rows.get p = none)
    {calls : List (Call A E)} (horder : InOrder calls) (hkept : t.Keeps p calls) :
    (∃ groups : List Group, groups.flatMap Group.times = t.allowed p calls ∧
      groups.IsChain fun g next => g.Over next.first) ∧
    ∀ before c later, calls = before ++ c :: later → c.key = p → ∀ e, (t.after before).rows.get p = some e →
      (∀ until_, e.lockedAt c.now = some until_ →
        (t.after before).decided c = (t.after before, .Locked (until_ - c.now))) ∧
      ∀ r, ((t.after before).decided c).2 = .Locked r → (t.after before).Exact c r later := by
  constructor
  · obtain ⟨now, hsince⟩ : ∃ now, Since now calls := by
      cases calls with
      | nil => exact ⟨0, .singleton _⟩
      | cons c calls => exact ⟨c.now, .cons_cons (le_refl _) horder⟩
    obtain ⟨history, now', hrecords, htimes⟩ := records_run hinv (hnew ▸ Records.nothing) hsince hkept
    exact ⟨history.reverse, htimes, List.isChain_reverse.mpr hrecords.apart⟩
  · rintro before c later rfl rfl e hrow
    obtain ⟨hinv', horder', hkept'⟩ := run_append hinv horder hkept
    exact ⟨fun until_ hlocked => decided_locked hrow hlocked, fun r hrefused => exact hinv' horder' hkept' hrow hrefused⟩

/-- A pair's own calls never take its row. -/
theorem keeps_own {p : A × E} {t : Table A E} (hinv : t.Inv) {calls : List (Call A E)} (h : ∀ c ∈ calls, c.key = p) :
    t.Keeps p calls := by
  induction calls generalizing t with
  | nil => trivial
  | cons c calls ih =>
    refine ⟨fun e he _ => ?_, ih (inv_admission hinv _ _ _ _) fun x hx => h x (List.mem_cons_of_mem c hx)⟩
    obtain rfl := h c List.mem_cons_self
    have hrow : (t.decided c).1.rows.get c.key = some (e.admission c.now).1 := by
      rw [decided_held he, rows, flat_put, Call.key, FMap.get_set_self]
    rw [hrow]
    exact Option.some_ne_none _

/-- One attempt more than a pair may make, all at once. -/
noncomputable def attempts : List (Call ℕ ℕ) := List.replicate 11 ⟨Listing.any _, 0, 0, 0⟩

theorem budget_bounded_attempts : ∃ groups : List Group, groups.flatMap Group.times = default.allowed (0, 0) attempts ∧
    groups.IsChain fun g next => g.Over next.first :=
  (budget_bounded inv_default rfl (by rw [InOrder, attempts, List.map_replicate]; decide)
    (keeps_own inv_default fun c hc => by rw [List.eq_of_mem_replicate hc]; rfl)).1

end Table

end Home.Throttle
