import ManageOurHome.RateLimit.Sliding

/-! @src apps/api/src/rate_limit.rs | layer:proof | family:rate-limit

    The sliding limits under any interleaving. The rows are held against the log of every admission
    ever committed: a subject's row and its whole log give the same admissions in the window, at every
    reading of the clock from some instant on. Forgetting a row moves that instant, never past the
    clock; an admission that read the clock before a row went and its log after sees it gone too
    early, and that is the one way to lose count.

        clock 10:59:59 ─────────────────────────▶ log: no row, admitted     one too many
                          clock 11:00:00, DELETE, commit      (another subject, same limit) -/

namespace Home.RateLimit

open FiniteMap ReadCommitted Relation

variable {K B L τ : Type*} [DecidableEq K] [DecidableEq B]

/-! ### The admissions committed -/

/-- The instant a commit admitted `subject` at. -/
def admission (subject : K × B) (c : Commit (K × B) (List ℤ) (Answer K B)) : Option ℤ :=
  match c.answer with
  | .decided k now true => if k = subject then some now else none
  | _ => none

/-- The admissions of `subject`, the last one first. -/
def admissions (subject : K × B) (log : List (Commit (K × B) (List ℤ) (Answer K B))) : List ℤ :=
  log.filterMap (admission subject)

/-- How many of them are in `(now - window, now]`. -/
def inWindow (rule : SlidingWindow) (now : ℤ) (admitted : List ℤ) : ℕ :=
  admitted.countP fun x => now - rule.window < x ∧ x ≤ now

theorem admission_eq_some {k : K × B} {c : Commit (K × B) (List ℤ) (Answer K B)} {now : ℤ} :
    admission k c = some now ↔ c.answer = .decided k now true := by
  rw [admission]
  constructor
  · intro h
    split at h
    · rename_i k' now' hans
      split at h
      · rename_i hk
        subst hk
        rw [hans, Option.some.inj h]
      · exact absurd h (by simp)
    · exact absurd h (by simp)
  · intro h
    rw [h]
    exact if_pos rfl

theorem admissions_cons (k : K × B) (c : Commit (K × B) (List ℤ) (Answer K B))
    (log : List (Commit (K × B) (List ℤ) (Answer K B))) :
    admissions k (c :: log) = (admission k c).toList ++ admissions k log := by
  rw [admissions, admissions, List.filterMap_cons]
  cases admission k c with
  | none => rfl
  | some now => rfl

theorem inWindow_eq (rule : SlidingWindow) {now : ℤ} {admitted : List ℤ}
    (h : ∀ x ∈ admitted, x ≤ now) :
    inWindow rule now admitted = (admitted.reverse.filter (rule.keeps now)).length := by
  rw [inWindow, ← List.countP_eq_length_filter, List.countP_reverse]
  refine List.countP_congr fun x hx => ?_
  rw [rule.keeps_iff (h x hx), decide_eq_true_iff]
  exact ⟨fun hw => hw.1, fun hw => ⟨hw, h x hx⟩⟩

/-! ### A row and the whole log -/

/-- From `from_` on, a row and the whole log give the same admissions in the window. -/
def Agrees (rule : SlidingWindow) (row admitted : List ℤ) (from_ : ℤ) : Prop :=
  ∀ now, from_ ≤ now → row.filter (rule.keeps now) = admitted.reverse.filter (rule.keeps now)

section Agrees

variable {rule : SlidingWindow} {row admitted : List ℤ} {from_ now : ℤ}

theorem Agrees.mono (h : Agrees rule row admitted from_) (hle : from_ ≤ now) :
    Agrees rule row admitted now := fun now' hnow' => h now' (hle.trans hnow')

/-- A row whose admissions are all over can be forgotten. -/
theorem Agrees.forget (h : Agrees rule row admitted from_)
    (hover : ∀ x ∈ row, x + rule.window ≤ now) : Agrees rule [] admitted (max from_ now) := by
  intro now' hnow'
  rw [← h now' ((le_max_left _ _).trans hnow'), List.filter_nil]
  symm
  refine List.filter_eq_nil_iff.mpr fun x hx => ?_
  rw [rule.not_keeps ((hover x hx).trans ((le_max_right _ _).trans hnow'))]
  exact Bool.false_ne_true

/-- Where no window is open, any row will do. -/
theorem Agrees.of_window_eq_zero (h : rule.window = 0) : Agrees rule row admitted from_ := by
  intro now' _
  have hnone : ∀ l : List ℤ, l.filter (rule.keeps now') = [] := fun l => by
    refine List.filter_eq_nil_iff.mpr fun x _ => ?_
    rw [SlidingWindow.keeps, h, since, decide_eq_true_iff]
    omega
  rw [hnone, hnone]

/-- The admissions with the one decided at `now`, if it was admitted. -/
def withDecision (now : ℤ) (ok : Bool) (admitted : List ℤ) : List ℤ :=
  if ok then now :: admitted else admitted

/-- What is written back agrees with the log and the decision. -/
theorem Agrees.admission (h : Agrees rule row admitted now) :
    Agrees rule (rule.admission row now).1 (withDecision now (rule.admission row now).2 admitted) now := by
  intro now' hnow'
  rcases rule.admission_eq row now with ⟨_, heq⟩ | ⟨_, heq⟩
  · rw [heq, withDecision, if_pos rfl, List.reverse_cons, List.filter_append, List.filter_append,
      rule.filter_filter_keeps hnow', h now' hnow']
  · rw [heq, withDecision, if_neg Bool.false_ne_true, rule.filter_filter_keeps hnow', h now' hnow']

/-- The decision taken on the row is the one the whole log gives. -/
theorem Agrees.decides (h : Agrees rule row admitted now) (hpast : ∀ x ∈ admitted, x ≤ now) :
    (rule.admission row now).2 = true ↔ inWindow rule now admitted < rule.limit := by
  rw [inWindow_eq rule hpast, ← h now (le_refl now)]
  rcases rule.admission_eq row now with ⟨hlt, heq⟩ | ⟨hge, heq⟩
  · rw [heq]; exact ⟨fun _ => hlt, fun _ => rfl⟩
  · rw [heq]; exact ⟨fun hfalse => absurd hfalse (by simp), fun hlt => absurd hlt (not_lt.mpr hge)⟩

end Agrees

/-! ### What holds of the table -/

/-- A decision as the whole log gives it. -/
structure Exact (rule : SlidingWindow) (now : ℤ) (ok : Bool) (admitted : List ℤ) : Prop where
  past : ∀ x ∈ admitted, x ≤ now
  decides : ok = true ↔ inWindow rule now admitted < rule.limit

structure Kept (limits : K → SlidingWindow) (s : Shared (K × B) (List ℤ) (Answer K B)) : Prop where
  row : ∀ k, ∃ from_, from_ ≤ s.clock ∧
    Agrees (limits k.1) ((s.rows.get k).getD []) (admissions k s.log) from_
  past : ∀ k, ∀ x ∈ admissions k s.log, x ≤ s.clock
  /-- A row held each admission of a window, unless none is ever open. -/
  seen : ∀ k, ∀ x ∈ admissions k s.log, (limits k.1).window = 0 ∨
    ∃ c ∈ s.log, ∃ row, c.rows.get k = some row ∧ x ∈ row
  exact : ∀ newer c older, s.log = newer ++ c :: older → ∀ k now ok, c.answer = .decided k now ok →
    Exact (limits k.1) now ok (admissions k older)

/-- An admission that finds no row finds no row forgotten too early: each one its subject ever had is
    over at its reading of the clock. -/
def Steady (limits : K → SlidingWindow) (s : Shared (K × B) (List ℤ) (Answer K B))
    (t : Tx (K × B) (List ℤ) L (Pc K B)) : Prop :=
  ∀ k held now, t.at_ = .timed k held now → s.rows.get k = none →
    ∀ c ∈ s.log, ∀ row, c.rows.get k = some row → ∀ x ∈ row, x + (limits k.1).window ≤ now

/-! ### What a transaction under way knows -/

/-- Under the lock of `k`, with nothing written. -/
structure Quiet (lockKey : B → L) (t : Tx (K × B) (List ℤ) L (Pc K B)) (k : K × B) : Prop where
  pending : t.pending = FMap.empty
  lock : lockKey k.2 ∈ t.locks

/-- What is written of the other subjects is deletions of rows that are over. -/
def Forgets (limits : K → SlidingWindow) (s : Shared (K × B) (List ℤ) (Answer K B))
    (pending : FMap (K × B) (Option (List ℤ))) (own : K × B → Prop) : Prop :=
  ∀ k o, ¬own k → pending.get k = some o →
    o = none ∧ ∃ now, now ≤ s.clock ∧ ∀ x ∈ (s.rows.get k).getD [], x + (limits k.1).window ≤ now

/-- A decision taken, and written back if there was anything to write. -/
structure Decided (limits : K → SlidingWindow) (lockKey : B → L)
    (s : Shared (K × B) (List ℤ) (Answer K B)) (t : Tx (K × B) (List ℤ) L (Pc K B))
    (k : K × B) (now : ℤ) (ok : Bool) : Prop where
  lock : lockKey k.2 ∈ t.locks
  time : now ≤ s.clock
  exact : Exact (limits k.1) now ok (admissions k s.log)
  row : ∃ from_, from_ ≤ s.clock ∧ Agrees (limits k.1) (((t.visible s.rows).get k).getD [])
    (withDecision now ok (admissions k s.log)) from_
  kept : ok = true → (limits k.1).window = 0 ∨ ∃ row, t.pending.get k = some (some row) ∧ now ∈ row
  others : Forgets limits s t.pending (· = k)

/-- The assertion at each point of a transaction. -/
def Local (limits : K → SlidingWindow) (lockKey : B → L)
    (s : Shared (K × B) (List ℤ) (Answer K B)) (t : Tx (K × B) (List ℤ) L (Pc K B)) : Prop :=
  match t.at_ with
  | .opened _ _ => t.pending = FMap.empty
  | .locked k _ => Quiet lockKey t k
  | .timed k _ now => Quiet lockKey t k ∧ now ≤ s.clock ∧ (∀ x ∈ admissions k s.log, x ≤ now) ∧
      ∀ row, s.rows.get k = some row → Agrees (limits k.1) row (admissions k s.log) now
  | .decided k _ now before log ok => Quiet lockKey t k ∧ now ≤ s.clock ∧
      (limits k.1).admission before now = (log, ok) ∧
      Agrees (limits k.1) before (admissions k s.log) now ∧
      Exact (limits k.1) now ok (admissions k s.log)
  | .forgetting k _ now ok => Decided limits lockKey s t k now ok ∧
      ∀ j o, t.pending.get j = some o → j = k
  | .done (.decided k now ok) => Decided limits lockKey s t k now ok
  | .done .purged => Forgets limits s t.pending fun _ => False
  | .purge => t.pending = FMap.empty
  | .purging now => t.pending = FMap.empty ∧ now ≤ s.clock

theorem get_visible (t : Tx (K × B) (List ℤ) L (Pc K B)) (rows : FMap (K × B) (List ℤ)) (k : K × B) :
    (t.visible rows).get k = (t.pending.get k).getD (rows.get k) := FMap.get_patch _ _ _

/-! ### Time passing -/

omit [DecidableEq K] [DecidableEq B] in
theorem Forgets.tick {limits : K → SlidingWindow} {s : Shared (K × B) (List ℤ) (Answer K B)}
    {pending : FMap (K × B) (Option (List ℤ))} {own : K × B → Prop} {c : ℤ}
    (h : Forgets limits s pending own) (hc : s.clock ≤ c) :
    Forgets limits { s with clock := c } pending own := by
  intro k o hk hp
  obtain ⟨ho, now, hnow, hover⟩ := h k o hk hp
  exact ⟨ho, now, hnow.trans hc, hover⟩

theorem Decided.tick {limits : K → SlidingWindow} {lockKey : B → L}
    {s : Shared (K × B) (List ℤ) (Answer K B)} {t : Tx (K × B) (List ℤ) L (Pc K B)} {k : K × B}
    {now c : ℤ} {ok : Bool} (h : Decided limits lockKey s t k now ok) (hc : s.clock ≤ c) :
    Decided limits lockKey { s with clock := c } t k now ok where
  lock := h.lock
  time := h.time.trans hc
  exact := h.exact
  row := by
    obtain ⟨from_, hle, hrow⟩ := h.row
    exact ⟨from_, hle.trans hc, hrow⟩
  kept := h.kept
  others := h.others.tick hc

theorem Local.tick {limits : K → SlidingWindow} {lockKey : B → L}
    {s : Shared (K × B) (List ℤ) (Answer K B)} {t : Tx (K × B) (List ℤ) L (Pc K B)} {c : ℤ}
    (h : Local limits lockKey s t) (hc : s.clock ≤ c) :
    Local limits lockKey { s with clock := c } t := by
  obtain ⟨pc, pending, locks⟩ := t
  cases pc with
  | opened | locked | purge => exact h
  | timed k held now => exact ⟨h.1, h.2.1.trans hc, h.2.2⟩
  | decided k held now before log ok => exact ⟨h.1, h.2.1.trans hc, h.2.2⟩
  | forgetting k held now ok => exact ⟨h.1.tick hc, h.2⟩
  | purging now => exact ⟨h.1, h.2.trans hc⟩
  | done answer =>
    cases answer with
    | decided k now ok => exact Decided.tick h hc
    | purged => exact Forgets.tick h hc

theorem Kept.tick {limits : K → SlidingWindow} {s : Shared (K × B) (List ℤ) (Answer K B)} {c : ℤ}
    (h : Kept limits s) (hc : s.clock ≤ c) : Kept limits { s with clock := c } where
  row k := by
    obtain ⟨from_, hle, hrow⟩ := h.row k
    exact ⟨from_, hle.trans hc, hrow⟩
  past k x hx := (h.past k x hx).trans hc
  seen := h.seen
  exact := h.exact

/-! ### A commit -/

/-- What a commit does to a subject's row: nothing, a deletion of what is over, or, under the
    subject's lock, what its decision left. -/
inductive Touch (limits : K → SlidingWindow) (lockKey : B → L)
    (s : Shared (K × B) (List ℤ) (Answer K B)) (t : Tx (K × B) (List ℤ) L (Pc K B))
    (ans : Answer K B) (k : K × B) : Prop where
  | same (hans : ∀ now ok, ans ≠ .decided k now ok)
      (hrow : (s.commit t ans).rows.get k = s.rows.get k)
  | forgotten (hans : ∀ now ok, ans ≠ .decided k now ok) (hrow : (s.commit t ans).rows.get k = none)
      (now : ℤ) (hnow : now ≤ s.clock)
      (hover : ∀ x ∈ (s.rows.get k).getD [], x + (limits k.1).window ≤ now)
  | decided (now : ℤ) (ok : Bool) (hans : ans = .decided k now ok)
      (hdecided : Decided limits lockKey s t k now ok)

section Commit

variable {limits : K → SlidingWindow} {lockKey : B → L}
  {s : Shared (K × B) (List ℤ) (Answer K B)} {t u : Tx (K × B) (List ℤ) L (Pc K B)}
  {ans : Answer K B} {k : K × B}

theorem admissions_commit_of_ne (h : ∀ now ok, ans ≠ .decided k now ok) :
    admissions k (s.commit t ans).log = admissions k s.log := by
  rw [Shared.commit, admissions_cons]
  have hnone : admission k ⟨ans, t.visible s.rows, s.clock⟩ = none :=
    Option.eq_none_iff_forall_not_mem.mpr fun x hx => h x true (admission_eq_some.mp hx)
  rw [hnone]
  rfl

theorem admissions_commit_of_eq {now : ℤ} {ok : Bool} (h : ans = .decided k now ok) :
    admissions k (s.commit t ans).log = withDecision now ok (admissions k s.log) := by
  subst h
  rw [Shared.commit, admissions_cons, admission]
  cases ok with
  | true => simp [withDecision]
  | false => simp [withDecision]

/-- Where a transaction about to commit is. -/
theorem at_done (hcode : code limits lockKey t.at_ = .commit ans) : t.at_ = .done ans := by
  obtain ⟨pc, pending, locks⟩ := t
  cases pc with
  | done answer => exact congrArg Pc.done (Stmt.commit.inj hcode)
  | decided k held now before log ok =>
    simp only [code, forget] at hcode
    split at hcode
    · exact absurd hcode (by simp)
    · split at hcode <;> exact absurd hcode (by simp)
  | _ => exact absurd hcode (by simp [code, forget])

theorem Forgets.touch {own : K × B → Prop} (h : Forgets limits s t.pending own) (hown : ¬own k)
    (hans : ∀ now ok, ans ≠ .decided k now ok) : Touch limits lockKey s t ans k := by
  have hget : (s.commit t ans).rows.get k = (t.pending.get k).getD (s.rows.get k) :=
    get_visible t s.rows k
  rcases hp : t.pending.get k with _ | o
  · rw [hp] at hget
    exact .same hans hget
  · obtain ⟨rfl, now, hnow, hover⟩ := h k o hown hp
    rw [hp] at hget
    exact .forgotten hans hget now hnow hover

/-- STEP: what a transaction's assertion says of its commit. -/
theorem Local.touch (h : Local limits lockKey s t) (hcode : code limits lockKey t.at_ = .commit ans)
    (k : K × B) : Touch limits lockKey s t ans k := by
  rw [Local, at_done hcode] at h
  cases ans with
  | purged =>
    have hforgets : Forgets limits s t.pending fun _ => False := h
    exact hforgets.touch id fun now ok => by simp
  | decided k' now ok =>
    have hdecided : Decided limits lockKey s t k' now ok := h
    by_cases hk : k = k'
    · subst hk
      exact .decided now ok rfl hdecided
    · refine hdecided.others.touch hk fun now' ok' heq => hk ?_
      obtain ⟨rfl, -⟩ := Answer.decided.inj heq
      rfl

/-- STEP: a commit keeps the table true to the log. -/
theorem Kept.commit (hk : Kept limits s) (h : Local limits lockKey s t)
    (hcode : code limits lockKey t.at_ = .commit ans) : Kept limits (s.commit t ans) := by
  refine ⟨fun k => ?_, fun k x hx => ?_, fun k x hx => ?_, fun newer c older hsplit k now ok hans => ?_⟩
  · obtain ⟨from_, hle, hrow⟩ := hk.row k
    cases h.touch hcode k with
    | same hans heq => exact ⟨from_, hle, by rw [admissions_commit_of_ne hans, heq]; exact hrow⟩
    | forgotten hans hnone now hnow hover =>
      exact ⟨max from_ now, max_le hle hnow, by
        rw [admissions_commit_of_ne hans, hnone]; exact hrow.forget hover⟩
    | decided now ok hans hdecided =>
      rw [admissions_commit_of_eq hans]
      exact hdecided.row
  · cases h.touch hcode k with
    | same hans | forgotten hans => exact hk.past k x (admissions_commit_of_ne hans ▸ hx)
    | decided now ok hans hdecided =>
      rw [admissions_commit_of_eq hans, withDecision] at hx
      split at hx
      · rcases List.mem_cons.mp hx with rfl | hx
        · exact hdecided.time
        · exact hk.past k x hx
      · exact hk.past k x hx
  · have hold : x ∈ admissions k s.log → (limits k.1).window = 0 ∨
        ∃ c ∈ (s.commit t ans).log, ∃ row, c.rows.get k = some row ∧ x ∈ row := fun hx => by
      rcases hk.seen k x hx with hzero | ⟨c, hc, hrow⟩
      · exact Or.inl hzero
      · exact Or.inr ⟨c, List.mem_cons_of_mem _ hc, hrow⟩
    cases h.touch hcode k with
    | same hans | forgotten hans => exact hold (admissions_commit_of_ne hans ▸ hx)
    | decided now ok hans hdecided =>
      rw [admissions_commit_of_eq hans, withDecision] at hx
      split at hx
      · rename_i hok
        rcases List.mem_cons.mp hx with rfl | hx
        · rcases hdecided.kept hok with hzero | ⟨row, hp, hmem⟩
          · exact Or.inl hzero
          · refine Or.inr ⟨_, List.mem_cons_self, row, ?_, hmem⟩
            show (t.visible s.rows).get k = some row
            rw [get_visible, hp, Option.getD_some]
        · exact hold hx
      · exact hold hx
  · cases newer with
    | nil =>
      obtain ⟨rfl, rfl⟩ := List.cons.inj hsplit
      cases h.touch hcode k with
      | same hne | forgotten hne => exact absurd hans (hne now ok)
      | decided now' ok' hans' hdecided =>
        obtain ⟨_, rfl, rfl⟩ := Answer.decided.inj (hans.symm.trans hans')
        exact hdecided.exact
    | cons c' newer => exact hk.exact newer c older (List.cons.inj hsplit).2 k now ok hans

/-- Under the lock of `k`, another's commit leaves its admissions, and at most forgets its row. -/
theorem Touch.of_lock (h : Touch limits lockKey s t ans k) (hapart : t.Apart u)
    (hlock : lockKey k.2 ∈ u.locks) :
    admissions k (s.commit t ans).log = admissions k s.log ∧
      ((s.commit t ans).rows.get k = s.rows.get k ∨ ((s.commit t ans).rows.get k = none ∧
        ∃ now, now ≤ s.clock ∧ ∀ x ∈ (s.rows.get k).getD [], x + (limits k.1).window ≤ now)) := by
  cases h with
  | same hans hrow => exact ⟨admissions_commit_of_ne hans, Or.inl hrow⟩
  | forgotten hans hrow now hnow hover =>
    exact ⟨admissions_commit_of_ne hans, Or.inr ⟨hrow, now, hnow, hover⟩⟩
  | decided now ok _ hdecided => exact absurd hlock (hapart.locks _ hdecided.lock)

/-- A row a transaction has written is not another's to commit. -/
theorem get_commit_of_pending (hapart : t.Apart u) {o : Option (List ℤ)}
    (hk : u.pending.get k = some o) : (s.commit t ans).rows.get k = s.rows.get k := by
  show (t.visible s.rows).get k = _
  rw [get_visible, hapart.get_eq_none hk, Option.getD_none]

theorem Forgets.commit {own : K × B → Prop} (h : Forgets limits s u.pending own)
    (hapart : t.Apart u) : Forgets limits (s.commit t ans) u.pending own := by
  intro k o hown hp
  obtain ⟨ho, now, hnow, hover⟩ := h k o hown hp
  exact ⟨ho, now, hnow, by rw [get_commit_of_pending hapart hp]; exact hover⟩

theorem Decided.commit {now : ℤ} {ok : Bool} (hu : Decided limits lockKey s u k now ok)
    (h : Touch limits lockKey s t ans k) (hapart : t.Apart u) :
    Decided limits lockKey (s.commit t ans) u k now ok := by
  obtain ⟨hadm, hrow⟩ := h.of_lock hapart hu.lock
  refine ⟨hu.lock, hu.time, by rw [hadm]; exact hu.exact, ?_, hu.kept, hu.others.commit hapart⟩
  obtain ⟨from_, hle, hagrees⟩ := hu.row
  rw [hadm]
  rw [get_visible] at hagrees ⊢
  rcases hp : u.pending.get k with _ | o
  · rw [hp, Option.getD_none] at hagrees
    rw [Option.getD_none]
    rcases hrow with heq | ⟨hnone, now', hnow', hover⟩
    · exact ⟨from_, hle, by rw [heq]; exact hagrees⟩
    · exact ⟨max from_ now', max_le hle hnow', by rw [hnone]; exact hagrees.forget hover⟩
  · rw [hp, Option.getD_some] at hagrees
    exact ⟨from_, hle, hagrees⟩

/-- STEP: a transaction's assertion survives another's commit. -/
theorem Local.commit (hu : Local limits lockKey s u) (h : ∀ k, Touch limits lockKey s t ans k)
    (hapart : t.Apart u) : Local limits lockKey (s.commit t ans) u := by
  obtain ⟨pc, pending, locks⟩ := u
  cases pc with
  | opened | locked | purge | purging => exact hu
  | timed k held now =>
    obtain ⟨hquiet, hnow, hpast, hrow⟩ := hu
    obtain ⟨hadm, htouch⟩ := (h k).of_lock hapart hquiet.lock
    refine ⟨hquiet, hnow, by rw [hadm]; exact hpast, fun row hget => ?_⟩
    rw [hadm]
    rcases htouch with heq | ⟨hnone, _⟩
    · exact hrow row (heq ▸ hget)
    · exact absurd (hnone.symm.trans hget) (by simp)
  | decided k held now before log ok =>
    obtain ⟨hquiet, hnow, hdecided, hagrees, hexact⟩ := hu
    obtain ⟨hadm, _⟩ := (h k).of_lock hapart hquiet.lock
    exact ⟨hquiet, hnow, hdecided, by rw [hadm]; exact hagrees, by rw [hadm]; exact hexact⟩
  | forgetting k held now ok => exact ⟨hu.1.commit (h k) hapart, hu.2⟩
  | done answer =>
    cases answer with
    | decided k now ok => exact Decided.commit hu (h k) hapart
    | purged => exact Forgets.commit hu hapart

end Commit

/-! ### One statement of its own -/

section Advance

variable {limits : K → SlidingWindow} {lockKey : B → L}
  {s : Shared (K × B) (List ℤ) (Answer K B)} {t t' : Tx (K × B) (List ℤ) L (Pc K B)} {k : K × B}

/-- An admission that finds no row, where none was forgotten too early, has none to count. -/
theorem Kept.agrees_nil (h : Kept limits s) {now : ℤ} (hpast : ∀ x ∈ admissions k s.log, x ≤ now)
    (hsteady : ∀ c ∈ s.log, ∀ row, c.rows.get k = some row → ∀ x ∈ row,
      x + (limits k.1).window ≤ now) : Agrees (limits k.1) [] (admissions k s.log) now := by
  intro now' hnow'
  symm
  rw [List.filter_nil, List.filter_eq_nil_iff]
  intro x hx
  rw [List.mem_reverse] at hx
  have hover : x + (limits k.1).window ≤ now := by
    rcases h.seen k x hx with hzero | ⟨c, hc, row, hrow, hmem⟩
    · have := hpast x hx
      omega
    · exact hsteady c hc row hrow x hmem
  rw [(limits k.1).not_keeps (hover.trans hnow')]
  exact Bool.false_ne_true

omit [DecidableEq B] in
theorem of_forgettable {rule : SlidingWindow} {held : K × B → Bool} {now : ℤ} {j k : K × B}
    {log : List ℤ} (h : forgettable rule k.1 held now j log = true) :
    j.1 = k.1 ∧ ∀ x ∈ log, x + rule.window ≤ now := by
  rw [forgettable, decide_eq_true_iff] at h
  exact ⟨h.1, SlidingWindow.of_expired h.2.1⟩

/-- The forgetting, after the decision's own row is as it should be. -/
theorem Decided.forget {now : ℤ} {ok : Bool} {held : K × B → Bool}
    (h : Decided limits lockKey s t k now ok) (hown : ∀ j o, t.pending.get j = some o → j = k) :
    Decided limits lockKey s
      { t with at_ := .done (.decided k now ok)
               pending := t.pending.merge (FMap.deleteWhere
                 (forgettable (limits k.1) k.1 held now) (t.visible s.rows)) }
      k now ok := by
  set gone := FMap.deleteWhere (forgettable (limits k.1) k.1 held now) (t.visible s.rows) with hgone
  have hmerge : ∀ j, (t.pending.merge gone).get j = (gone.get j).or (t.pending.get j) :=
    FMap.get_merge _ _
  refine ⟨h.lock, h.time, h.exact, ?_, fun hok => ?_, fun j o hj hp => ?_⟩
  · obtain ⟨from_, hle, hagrees⟩ := h.row
    rw [get_visible, hmerge]
    rcases hd : gone.get k with _ | o
    · rw [Option.none_or, ← get_visible]
      exact ⟨from_, hle, hagrees⟩
    · obtain ⟨rfl, row, hrow, hp⟩ := FMap.get_deleteWhere.mp hd
      rw [hrow] at hagrees
      exact ⟨max from_ now, max_le hle h.time, hagrees.forget (of_forgettable hp).2⟩
  · rcases h.kept hok with hzero | ⟨row, hp, hmem⟩
    · exact Or.inl hzero
    · by_cases hzero : (limits k.1).window = 0
      · exact Or.inl hzero
      -- the row just written holds `now`, and is not over
      refine Or.inr ⟨row, ?_, hmem⟩
      rw [hmerge]
      rcases hd : gone.get k with _ | o
      · exact hp
      · obtain ⟨rfl, row', hrow, hexp⟩ := FMap.get_deleteWhere.mp hd
        rw [get_visible, hp, Option.getD_some] at hrow
        obtain rfl := Option.some.inj hrow
        have := (of_forgettable hexp).2 now hmem
        omega
  · rw [hmerge] at hp
    rcases hd : gone.get j with _ | o'
    · rw [hd, Option.none_or] at hp
      exact h.others j o hj hp
    · obtain ⟨rfl, row, hrow, hexp⟩ := FMap.get_deleteWhere.mp hd
      rw [hd] at hp
      obtain rfl := Option.some.inj hp
      have hnone : t.pending.get j = none := by
        rcases hj' : t.pending.get j with _ | o
        · rfl
        · exact absurd (hown j o hj') hj
      rw [get_visible, hnone, Option.getD_none] at hrow
      refine ⟨rfl, now, h.time, ?_⟩
      rw [hrow, Option.getD_some, (of_forgettable hexp).1]
      exact (of_forgettable hexp).2

/-- STEP: a statement leads to the next assertion. -/
theorem Local.advance (hk : Kept limits s) (h : Local limits lockKey s t)
    (hsteady : Steady limits s t) (hadv : Tx.Advance (code limits lockKey) s t t') :
    Local limits lockKey s t' := by
  obtain ⟨pc, pending, locks⟩ := t
  cases pc with
  | opened k held =>
    have hpending : pending = FMap.empty := h
    rw [hadv.of_lock rfl]
    exact ⟨hpending, List.mem_cons_self⟩
  | locked k held =>
    have hquiet : Quiet lockKey _ k := h
    rw [hadv.of_clock rfl]
    refine ⟨⟨hquiet.pending, hquiet.lock⟩, le_refl _, hk.past k, fun row hget => ?_⟩
    obtain ⟨from_, hle, hagrees⟩ := hk.row k
    rw [hget, Option.getD_some] at hagrees
    exact hagrees.mono hle
  | timed k held now =>
    obtain ⟨hquiet, hnow, hpast, hrow⟩ := h
    rw [hadv.of_query rfl, Tx.visible_of_empty hquiet.pending]
    have hagrees : Agrees (limits k.1) ((s.rows.get k).getD []) (admissions k s.log) now := by
      rcases hget : s.rows.get k with _ | row
      · exact hk.agrees_nil hpast (hsteady k held now rfl hget)
      · exact hrow row hget
    exact ⟨⟨hquiet.pending, hquiet.lock⟩, hnow, rfl, hagrees, hpast, hagrees.decides hpast⟩
  | decided k held now before log ok =>
    obtain ⟨hquiet, hnow, hdecided, hagrees, hexact⟩ := h
    obtain rfl : pending = FMap.empty := hquiet.pending
    have hwrites : Agrees (limits k.1) log (withDecision now ok (admissions k s.log)) now := by
      have := hagrees.admission
      rwa [hdecided] at this
    have hmem : ok = true → now ∈ log := by
      intro hok
      rcases (limits k.1).admission_eq before now with ⟨_, heq⟩ | ⟨_, heq⟩
      · obtain ⟨rfl, -⟩ := Prod.mk.inj (hdecided.symm.trans heq)
        exact List.mem_append_right _ List.mem_cons_self
      · obtain ⟨-, rfl⟩ := Prod.mk.inj (hdecided.symm.trans heq)
        exact absurd hok (by simp)
    by_cases hempty : log = []
    · have hcode : code limits lockKey (.decided k held now before log ok) = _ := if_pos hempty
      rw [hadv.of_write hcode, FMap.empty_merge, Tx.visible_of_empty rfl]
      have hget : ∀ j o, (FMap.deleteWhere (fun k' _ => decide (k' = k)) s.rows).get j = some o →
          o = none ∧ j = k := fun j o hj => by
        obtain ⟨rfl, _, _, hjk⟩ := FMap.get_deleteWhere.mp hj
        exact ⟨rfl, of_decide_eq_true hjk⟩
      refine ⟨⟨hquiet.lock, hnow, hexact, ⟨now, hnow, ?_⟩, fun hok => ?_, fun j o hj hp => ?_⟩,
        fun j o hj => (hget j o hj).2⟩
      · rw [get_visible]
        rcases hd : (FMap.deleteWhere (fun k' _ => decide (k' = k)) s.rows).get k with _ | o
        · have hnone : s.rows.get k = none := by
            rcases hrow : s.rows.get k with _ | row
            · rfl
            · exact absurd (hd.symm.trans (FMap.get_deleteWhere.mpr ⟨rfl, row, hrow, by simp⟩))
                (by simp)
          rw [hempty] at hwrites
          show Agrees _ ((s.rows.get k).getD []) _ _
          rw [hnone]
          exact hwrites
        · obtain ⟨rfl, _⟩ := hget k o hd
          rw [hempty] at hwrites
          exact hwrites
      · exact absurd (hmem hok) (by rw [hempty]; exact List.not_mem_nil)
      · exact absurd (hget j o hp).2 hj
    · by_cases hsame : log = before
      · have hcode : code limits lockKey (.decided k held now before log ok) =
            forget limits k held now ok := by
          rw [code, if_neg hempty, if_neg (not_not.mpr hsame)]
        rw [hadv.of_write hcode]
        have hzero : ok = true → (limits k.1).window = 0 := by
          rintro rfl
          rw [← hsame] at hdecided
          exact (limits k.1).window_eq_zero hdecided
        refine Decided.forget (t := ⟨.decided k held now before log ok, FMap.empty, locks⟩)
          ⟨hquiet.lock, hnow, hexact, ?_, fun hok => Or.inl (hzero hok),
            fun j o _ hp => absurd hp (by simp)⟩ fun j o hp => absurd hp (by simp)
        rw [Tx.visible_of_empty rfl]
        cases ok with
        | true => exact ⟨s.clock, le_refl _, Agrees.of_window_eq_zero (hzero rfl)⟩
        | false => exact hk.row k
      · have hcode : code limits lockKey (.decided k held now before log ok) =
            .write (fun _ => FMap.one k (some log)) fun _ => .forgetting k held now ok := by
          rw [code, if_neg hempty, if_pos hsame]
        rw [hadv.of_write hcode, FMap.empty_merge]
        have hone : ∀ j o, (FMap.one k (some log)).get j = some o → j = k ∧ o = some log :=
          fun j o hj => by
            rw [FMap.get_one] at hj
            split at hj
            · rename_i hjk
              exact ⟨hjk, (Option.some.inj hj).symm⟩
            · exact absurd hj (by simp)
        refine ⟨⟨hquiet.lock, hnow, hexact, ⟨now, hnow, ?_⟩, fun hok => Or.inr ⟨log, ?_, hmem hok⟩,
          fun j o hj hp => absurd (hone j o hp).1 hj⟩, fun j o hj => (hone j o hj).1⟩
        · rw [get_visible]
          show Agrees _ ((((FMap.one k (some log)).get k).getD _).getD []) _ _
          rw [FMap.get_one, if_pos rfl]
          exact hwrites
        · exact (FMap.get_one k k _).trans (if_pos rfl)
  | forgetting k held now ok =>
    obtain ⟨hdecided, hown⟩ := h
    rw [hadv.of_write rfl]
    exact hdecided.forget hown
  | done answer => exact (hadv.not_commit rfl).elim
  | purge =>
    have hpending : pending = FMap.empty := h
    rw [hadv.of_clock rfl]
    exact ⟨hpending, le_refl _⟩
  | purging now =>
    obtain ⟨hpending, hnow⟩ := h
    have hpending' : pending = FMap.empty := hpending
    rw [hadv.of_write rfl, hpending', FMap.empty_merge]
    intro j o _ hj
    obtain ⟨rfl, row, hrow, hexp⟩ := FMap.get_deleteWhere.mp hj
    have hrow' : s.rows.get j = some row := hrow
    refine ⟨rfl, now, hnow, ?_⟩
    rw [hrow', Option.getD_some]
    exact SlidingWindow.of_expired hexp

end Advance

/-! ### Every interleaving -/

omit [DecidableEq B] in
theorem kept_init [DecidableEq B] (limits : K → SlidingWindow) (c : ℤ) :
    Kept limits (⟨FMap.empty, c, []⟩ : Shared (K × B) (List ℤ) (Answer K B)) where
  row k := ⟨c, le_refl _, fun _ _ => rfl⟩
  past k x hx := absurd hx List.not_mem_nil
  seen k x hx := absurd hx List.not_mem_nil
  exact newer c' older h := absurd h (by simp)

theorem outline (limits : K → SlidingWindow) (lockKey : B → L) :
    Outline (Steady limits) (code limits lockKey) Starts (Kept limits) (Local limits lockKey) where
  init := kept_init limits
  tick _ _ hc h := h.tick hc
  tick_tx _ _ _ hc _ h := h.tick hc
  begin _ l _ hstart := by
    cases hstart with
    | request k held => rfl
    | purge => rfl
  advance _ _ _ hok hk h hadv := h.advance hk hok hadv
  commit _ _ _ hk h hcode := hk.commit h hcode
  commit_tx _ _ _ _ _ h hcode hu hapart := hu.commit (fun k => h.touch hcode k) hapart

/-- Admissions within one window of each other are no more than the limit. -/
theorem Kept.count_le {limits : K → SlidingWindow} {s : Shared (K × B) (List ℤ) (Answer K B)}
    (h : Kept limits s) (k : K × B) (p : ℤ → Bool)
    (hp : ∀ x y, p x = true → p y = true → y < x + (limits k.1).window) :
    (admissions k s.log).countP p ≤ (limits k.1).limit := by
  suffices hsuffix : ∀ older newer, s.log = newer ++ older →
      (admissions k older).countP p ≤ (limits k.1).limit from hsuffix s.log [] rfl
  intro older
  induction older with
  | nil => exact fun _ _ => Nat.zero_le _
  | cons c older ih =>
    intro newer hsplit
    have hold := ih (newer ++ [c]) (by rw [hsplit, List.append_assoc]; rfl)
    rw [admissions_cons]
    rcases hadm : admission k c with _ | now
    · exact hold
    · rw [Option.toList_some, List.singleton_append, List.countP_cons]
      by_cases hnow : p now = true
      · obtain ⟨hpast, hdecides⟩ := h.exact newer c older hsplit k now true (admission_eq_some.mp hadm)
        have hlt := hdecides.mp rfl
        have hle : (admissions k older).countP p ≤ inWindow (limits k.1) now (admissions k older) := by
          refine List.countP_mono_left fun x hx hpx => ?_
          have := hp x now hpx hnow
          rw [decide_eq_true_iff]
          exact ⟨by omega, hpast x hx⟩
        rw [if_pos hnow]
        omega
      · rw [if_neg hnow]
        exact hold

/-- CORRECT: in every interleaving where no row is forgotten between an admission's reading of the
    clock and its reading of the log while still open at the first, each request is admitted exactly
    if fewer than `limit` of its subject's were in the window before it, whatever was forgotten; so no
    half-open interval as long as the window holds more than `limit`. -/
theorem limits_exact (limits : K → SlidingWindow) (lockKey : B → L) [DecidableEq τ]
    (w : World (K × B) (List ℤ) L (Answer K B) (Pc K B) τ)
    (h : ReachableIf (Steady limits) (code limits lockKey) Starts w) :
    (∀ newer c older, w.log = newer ++ c :: older →
      ∀ k now admitted, c.answer = .decided k now admitted →
        (admitted = true ↔ inWindow (limits k.1) now (admissions k older) < (limits k.1).limit)) ∧
    ∀ k (u : ℤ), ((admissions k w.log).countP fun x => u ≤ x ∧ x < u + (limits k.1).window) ≤
        (limits k.1).limit ∧
      ((admissions k w.log).countP fun x => u < x ∧ x ≤ u + (limits k.1).window) ≤
        (limits k.1).limit := by
  have hkept := ((outline limits lockKey).reachable h).shared
  refine ⟨fun newer c older hsplit k now ok hans =>
    (hkept.exact newer c older hsplit k now ok hans).decides, fun k u => ⟨?_, ?_⟩⟩
  · refine hkept.count_le k _ fun x y hx hy => ?_
    rw [decide_eq_true_iff] at hx hy
    omega
  · refine hkept.count_le k _ fun x y hx hy => ?_
    rw [decide_eq_true_iff] at hx hy
    omega

/-! ### One admission too many -/

section TooMany

/-- Two subjects of one limit, three admissions a day. -/
def hurried : Kind × Bool := (.accountExistsNotice, false)

def other : Kind × Bool := (.accountExistsNotice, true)

/-- `s` after an admission of `hurried`, alone. -/
def admitted (s : Shared (Kind × Bool) (List ℤ) (Answer Kind Bool)) :
    Shared (Kind × Bool) (List ℤ) (Answer Kind Bool) :=
  (Tx.run (code LIMITS (id : Bool → Bool)) 7 s (Tx.begin (.opened hurried fun _ => false))).getD s

/-- Three admissions of `hurried`, at one instant. -/
def spent : Shared (Kind × Bool) (List ℤ) (Answer Kind Bool) :=
  admitted (admitted (admitted ⟨FMap.empty, 0, []⟩))

theorem spent_reached :
    ReflTransGen (Step (code LIMITS (id : Bool → Bool)) Starts) (World.init 0)
      (World.only spent (1 : ℕ) none) := by
  have hagain : ∀ s, Tx.run (code LIMITS (id : Bool → Bool)) 7 s
        (Tx.begin (.opened hurried fun _ => false)) = some (admitted s) →
      ReflTransGen (Step (code LIMITS (id : Bool → Bool)) Starts) (World.only s (1 : ℕ) none)
        (World.only (admitted s) 1 none) := fun s hs =>
    .head (World.beside_begin (Starts.request hurried _)) (Tx.run_steps 1 7 s _ hs)
  have hinit : (World.init 0 : World (Kind × Bool) (List ℤ) Bool (Answer Kind Bool) (Pc Kind Bool) ℕ)
      = World.only ⟨FMap.empty, 0, []⟩ (1 : ℕ) none := by simp [World.beside, World.init]
  rw [hinit]
  exact ((hagain _ rfl).trans (hagain _ rfl)).trans (hagain _ rfl)

/-- An admission too many: `hurried` reads the clock a nanosecond before its three admissions are over,
    `other` forgets them a nanosecond later, and `hurried` reads no row. -/
theorem admitted_too_many :
    ¬∀ w : World (Kind × Bool) (List ℤ) Bool (Answer Kind Bool) (Pc Kind Bool) ℕ,
      Reachable (code LIMITS id) Starts w → ∀ newer c older, w.log = newer ++ c :: older →
        ∀ k now ok, c.answer = .decided k now ok →
          (ok = true ↔ inWindow (LIMITS k.1) now (admissions k older) < (LIMITS k.1).limit) := by
  intro hclaim
  set none₁ : Kind × Bool → Bool := fun _ => false with hnone₁
  set hasty : Tx (Kind × Bool) (List ℤ) Bool (Pc Kind Bool) :=
    ⟨.timed hurried none₁ (day - 1), FMap.empty, [false]⟩ with hhasty
  -- `hurried` reads the clock
  have htimed : ReflTransGen (Step (code LIMITS (id : Bool → Bool)) Starts)
      (World.only spent (1 : ℕ) none)
      (World.only { spent with clock := day } 1 (some hasty)) :=
    ReflTransGen.single (.tick _ (day - 1) (by decide))
      |>.tail (World.beside_begin (s := { spent with clock := day - 1 }) (Starts.request hurried none₁))
      |>.tail (World.only_step trivial (.lock false (.locked hurried none₁) rfl))
      |>.tail (World.only_step trivial (.clock (.timed hurried none₁) rfl))
      |>.tail (.tick _ day (by decide))
  -- `other` is admitted, and forgets
  have hapart : ∀ (pc : Pc Kind Bool) (pending : FMap (Kind × Bool) (Option (List ℤ))) (j : ℕ)
      (u : Tx (Kind × Bool) (List ℤ) Bool (Pc Kind Bool)), j ≠ 2 →
      Function.update (fun _ => none) 1 (some hasty) j = some u →
      (⟨pc, pending, [true]⟩ : Tx (Kind × Bool) (List ℤ) Bool (Pc Kind Bool)).Apart u := by
    intro pc pending j u _ hu
    rcases of_update hu with ⟨_, he⟩ | ⟨_, he⟩
    · obtain rfl := Option.some.inj he
      exact ⟨fun l hl => by rw [List.mem_singleton.mp hl]; decide, fun k _ => Finset.notMem_empty k⟩
    · exact absurd he (by simp)
  have hforgot : ∃ s : Shared (Kind × Bool) (List ℤ) (Answer Kind Bool),
      ReflTransGen (Step (code LIMITS (id : Bool → Bool)) Starts)
        (World.beside (Function.update (fun _ => none) 1 (some hasty)) { spent with clock := day } 2 none)
        (World.beside (Function.update (fun _ => none) 1 (some hasty)) s (2 : ℕ) none) ∧
      s.rows.get hurried = none ∧
      admissions hurried s.log = [0, 0, 0] := by
    refine ⟨_, ReflTransGen.single (World.beside_begin (Starts.request other none₁))
      |>.tail (World.beside_step trivial (.lock true (.locked other none₁) rfl) (hapart _ _))
      |>.tail (World.beside_step trivial (.clock (.timed other none₁) rfl) (hapart _ _))
      |>.tail (World.beside_step trivial (.query _ rfl) (hapart _ _))
      |>.tail (World.beside_step trivial (.write _ _ rfl) (hapart _ _))
      |>.tail (World.beside_step trivial (.write _ _ rfl) (hapart _ _))
      |>.tail (World.beside_commit rfl), rfl, rfl⟩
  obtain ⟨s, hsteps, hgone, hadm⟩ := hforgot
  have hworld : ∀ s : Shared (Kind × Bool) (List ℤ) (Answer Kind Bool),
      World.beside (Function.update (fun _ => none) 1 (some hasty)) s 2 none
        = World.only s (1 : ℕ) (some hasty) := fun s => by
    simp only [World.beside]
    congr 1
    exact Function.update_eq_self_iff.mpr (by simp)
  rw [hworld, hworld] at hsteps
  -- `hurried` reads no row
  have hquery : Tx.Advance (code LIMITS (id : Bool → Bool)) s hasty
      ⟨.decided hurried none₁ (day - 1) [] [day - 1] true, FMap.empty, [false]⟩ := by
    have hadv : Tx.Advance (code LIMITS (id : Bool → Bool)) s hasty _ := .query _ rfl
    rw [Tx.visible_of_empty rfl, hgone] at hadv
    exact hadv
  have hend := hsteps.tail (World.only_step trivial hquery)
    |>.tail (World.only_step trivial (.write _ _ rfl))
    |>.tail (World.only_step trivial (.write _ _ rfl))
    |>.tail (World.beside_commit rfl)
  have hbad := hclaim _ ⟨0, (spent_reached.trans htimed).trans hend⟩ [] _ s.log rfl hurried (day - 1)
    true rfl
  rw [hadm] at hbad
  exact absurd (hbad.mp rfl) (by decide)

omit [DecidableEq K] [DecidableEq B] in
theorem steady_of_nil {limits : K → SlidingWindow} {s : Shared (K × B) (List ℤ) (Answer K B)}
    (h : s.log = []) (t : Tx (K × B) (List ℤ) L (Pc K B)) : Steady limits s t := by
  intro k held now _ _ c hc
  rw [h] at hc
  exact absurd hc List.not_mem_nil

/-- The first admission of a subject. -/
theorem limits_exact_first :
    ∃ w : World (Kind × Bool) (List ℤ) Bool (Answer Kind Bool) (Pc Kind Bool) ℕ,
      admissions hurried w.log = [0] ∧
      ((admissions hurried w.log).countP fun x : ℤ => 0 ≤ x ∧ x < 0 + (LIMITS hurried.1).window) ≤ 3 := by
  have hbegin : StepIf (Steady LIMITS) (code LIMITS (id : Bool → Bool)) Starts
      (World.only ⟨FMap.empty, 0, []⟩ (0 : ℕ) none) _ :=
    World.beside_begin (Starts.request hurried fun _ => false)
  have hlogged := ReflTransGen.single hbegin
    |>.tail (World.only_step (steady_of_nil rfl _) (.lock false (.locked hurried _) rfl))
    |>.tail (World.only_step (steady_of_nil rfl _) (.clock (.timed hurried _) rfl))
    |>.tail (World.only_step (steady_of_nil rfl _) (.query _ rfl))
  have hcommitted := hlogged
    |>.tail (World.only_step (steady_of_nil rfl _) (.write _ _ rfl))
    |>.tail (World.only_step (steady_of_nil rfl _) (.write _ _ rfl))
    |>.tail (World.beside_commit (a := .decided hurried 0 true) rfl)
  have hinit : (World.init 0 : World (Kind × Bool) (List ℤ) Bool (Answer Kind Bool) (Pc Kind Bool) ℕ)
      = World.only ⟨FMap.empty, 0, []⟩ (0 : ℕ) none := by simp [World.beside, World.init]
  rw [← hinit] at hcommitted
  refine ⟨_, ?_, ((limits_exact LIMITS id _ ⟨0, hcommitted⟩).2 hurried 0).1⟩
  rfl

end TooMany

end Home.RateLimit
