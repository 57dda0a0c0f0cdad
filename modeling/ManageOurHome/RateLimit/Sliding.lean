import Mathlib.Order.Lattice
import ManageOurHome.Lib.ReadCommitted
import ManageOurHome.Time

/-! @src apps/api/src/rate_limit.rs | layer:model | family:rate-limit

    The sliding windows: at most `limit` admissions of a subject per `window`. A subject's row holds
    its admissions still inside the window. One admission is one transaction, under its subject's
    lock; at its end it forgets the other subjects of its limit whose admissions are all over, and so
    does the hourly purge, for every limit.

        lock subject ─▶ clock ─▶ own log ─▶ decide ─▶ write the log ─▶ forget others ─▶ commit

    `K` is the type of the kinds of limits, `B` of the subjects' pseudonyms; `lockKey` is the first four
    bytes of a pseudonym, which two subjects may share. -/

namespace Home.RateLimit

open FiniteMap ReadCommitted

/-- At most `limit` admissions per `window`, in nanoseconds. -/
structure SlidingWindow where
  limit : ℕ
  window : ℕ
  deriving DecidableEq, Repr

/-- Whether an admission is still in the window at `now`. -/
def SlidingWindow.keeps (rule : SlidingWindow) (now at_ : ℤ) : Bool := since now at_ < rule.window

/-- `SlidingWindow::admit`: drops the admissions that left the window at `now`, then admits `now`
    if fewer than `limit` remain. -/
def SlidingWindow.admission (rule : SlidingWindow) (log : List ℤ) (now : ℤ) : List ℤ × Bool :=
  let log := log.filter (rule.keeps now)
  if rule.limit ≤ log.length then (log, false) else (log ++ [now], true)

/-- Whether every admission of `log` left the window at `now`. -/
def SlidingWindow.forgets (rule : SlidingWindow) (log : List ℤ) (now : ℤ) : Bool :=
  log.all fun at_ => rule.window ≤ since now at_

/-- `(SELECT max(a) FROM unnest(admitted) AS a) <= horizon`, the window ending at `now`. -/
def SlidingWindow.expired (rule : SlidingWindow) (now : ℤ) (admitted : List ℤ) : Bool :=
  admitted.max?.any (· ≤ now - rule.window)

/-- `rate_limit_log.kind`. -/
inductive Kind where
  | recipeImport | openfoodfacts | accountExistsNotice | googleSignIn
  deriving DecidableEq, Repr

/-- Every limit kept in `rate_limit_log`. -/
def LIMITS : Kind → SlidingWindow
  | .recipeImport => ⟨10, (10 * minute).toNat⟩
  | .openfoodfacts => ⟨15, minute.toNat⟩
  | .accountExistsNotice => ⟨3, day.toNat⟩
  | .googleSignIn => ⟨20, (10 * minute).toNat⟩

/-- What a transaction ended with. -/
inductive Answer (K B : Type*) where
  | decided (subject : K × B) (now : ℤ) (admitted : Bool)
  | purged

/-- Where a transaction is, with the variables it holds there. `held` are the rows it will find held
    by another transaction when it forgets, and skip. -/
inductive Pc (K B : Type*) where
  | opened (subject : K × B) (held : K × B → Bool)
  | locked (subject : K × B) (held : K × B → Bool)
  | timed (subject : K × B) (held : K × B → Bool) (now : ℤ)
  | decided (subject : K × B) (held : K × B → Bool) (now : ℤ) (before log : List ℤ) (admitted : Bool)
  | forgetting (subject : K × B) (held : K × B → Bool) (now : ℤ) (admitted : Bool)
  | done (answer : Answer K B)
  | purge
  | purging (now : ℤ)

variable {K B L : Type*} [DecidableEq K] [DecidableEq B]

/-- The rows the forgetting takes: over, of the same kind, and not held by another transaction. -/
def forgettable (rule : SlidingWindow) (kind : K) (held : K × B → Bool) (now : ℤ) (k : K × B)
    (log : List ℤ) : Bool := k.1 = kind ∧ rule.expired now log ∧ held k = false

/-- The forgetting `DELETE`, `FOR UPDATE SKIP LOCKED`. -/
def forget (limits : K → SlidingWindow) (subject : K × B) (held : K × B → Bool) (now : ℤ)
    (admitted : Bool) : Stmt (K × B) (List ℤ) L (Answer K B) (Pc K B) :=
  .write (FMap.deleteWhere (forgettable (limits subject.1) subject.1 held now))
    fun _ => .done (.decided subject now admitted)

/-- `SlidingLimiter::admit`, statement by statement, and a run of `purge_expired`. -/
def code (limits : K → SlidingWindow) (lockKey : B → L) :
    Pc K B → Stmt (K × B) (List ℤ) L (Answer K B) (Pc K B)
  | .opened subject held => .lock (lockKey subject.2) (.locked subject held)
  | .locked subject held => .clock (.timed subject held)
  | .timed subject held now => .query fun rows =>
      let before := (rows.get subject).getD []
      let (log, admitted) := (limits subject.1).admission before now
      .decided subject held now before log admitted
  | .decided subject held now before log admitted =>
      if log = [] then
        -- refused with an empty log: only a zero limit gets here
        .write (FMap.deleteWhere fun k _ => k = subject) fun _ => .forgetting subject held now admitted
      else if log ≠ before then
        .write (fun _ => FMap.one subject (some log)) fun _ => .forgetting subject held now admitted
      else forget limits subject held now admitted
  | .forgetting subject held now admitted => forget limits subject held now admitted
  | .done answer => .commit answer
  | .purge => .clock .purging
  | .purging now => .write (FMap.deleteWhere fun k log => (limits k.1).expired now log) fun _ =>
      .done .purged

/-- A request of any subject, or a run of the purge. -/
inductive Starts : Pc K B → Prop where
  | request (subject : K × B) (held : K × B → Bool) : Starts (.opened subject held)
  | purge : Starts .purge

/-! ### The pure decision -/

theorem SlidingWindow.keeps_iff (rule : SlidingWindow) {now at_ : ℤ} (h : at_ ≤ now) :
    rule.keeps now at_ = true ↔ now - rule.window < at_ := by
  rw [keeps, decide_eq_true_iff, since_of_le h]
  omega

/-- What has left the window does not come back. -/
theorem SlidingWindow.keeps_of_le (rule : SlidingWindow) {now now' at_ : ℤ} (hle : now ≤ now')
    (h : rule.keeps now' at_ = true) : rule.keeps now at_ = true := by
  rw [keeps, decide_eq_true_iff, since] at *
  omega

theorem SlidingWindow.not_keeps (rule : SlidingWindow) {now at_ : ℤ}
    (h : at_ + rule.window ≤ now) : rule.keeps now at_ = false := by
  rw [keeps, decide_eq_false_iff_not, since]
  omega

theorem SlidingWindow.filter_filter_keeps (rule : SlidingWindow) {now now' : ℤ} (hle : now ≤ now')
    (log : List ℤ) :
    (log.filter (rule.keeps now)).filter (rule.keeps now') = log.filter (rule.keeps now') := by
  rw [List.filter_filter]
  refine List.filter_congr fun x _ => ?_
  by_cases h : rule.keeps now' x = true
  · rw [h, rule.keeps_of_le hle h]; rfl
  · rw [Bool.not_eq_true] at h; rw [h, Bool.false_and]

/-- An expired row holds an admission, and each of its admissions has left the window. -/
theorem SlidingWindow.of_expired {rule : SlidingWindow} {now : ℤ} {log : List ℤ}
    (h : rule.expired now log = true) : ∀ x ∈ log, x + rule.window ≤ now := by
  intro x hx
  rw [expired, Option.any_eq_true] at h
  obtain ⟨newest, hmax, hle⟩ := h
  rw [decide_eq_true_iff] at hle
  have := (List.max?_eq_some_iff.mp hmax).2 x hx
  omega

/-- The rows the `DELETE`s take are the rows the rule forgets. -/
theorem SlidingWindow.expired_iff_forgets {rule : SlidingWindow} {now : ℤ} {log : List ℤ}
    (hne : log ≠ []) (hnow : ∀ x ∈ log, x ≤ now) :
    rule.expired now log = true ↔ rule.forgets log now = true := by
  constructor
  · intro h
    rw [forgets, List.all_eq_true]
    intro x hx
    have := of_expired h x hx
    rw [decide_eq_true_iff, since_of_le (hnow x hx)]
    omega
  · intro h
    rw [forgets, List.all_eq_true] at h
    rw [expired, Option.any_eq_true]
    obtain ⟨newest, hmax⟩ := Option.isSome_iff_exists.mp
      (List.isSome_max?_of_ne_nil hne)
    have hmem := (List.max?_eq_some_iff.mp hmax).1
    have hall := h newest hmem
    rw [decide_eq_true_iff, since_of_le (hnow newest hmem)] at hall
    exact ⟨newest, hmax, by rw [decide_eq_true_iff]; omega⟩

theorem SlidingWindow.admission_eq (rule : SlidingWindow) (log : List ℤ) (now : ℤ) :
    ((log.filter (rule.keeps now)).length < rule.limit ∧
      rule.admission log now = (log.filter (rule.keeps now) ++ [now], true)) ∨
    (rule.limit ≤ (log.filter (rule.keeps now)).length ∧
      rule.admission log now = (log.filter (rule.keeps now), false)) := by
  rcases lt_or_ge (log.filter (rule.keeps now)).length rule.limit with hlt | hge
  · exact Or.inl ⟨hlt, by rw [admission, if_neg (not_le.mpr hlt)]⟩
  · exact Or.inr ⟨hge, by rw [admission, if_pos hge]⟩

/-- An admission leaves the log as it was only where no window is open at all. -/
theorem SlidingWindow.window_eq_zero (rule : SlidingWindow) {log : List ℤ} {now : ℤ}
    (h : rule.admission log now = (log, true)) : rule.window = 0 := by
  by_contra hpos
  have hnow : rule.keeps now now = true := by
    rw [keeps, decide_eq_true_iff, since_of_le (le_refl now)]
    omega
  rcases rule.admission_eq log now with ⟨_, heq⟩ | ⟨_, heq⟩
  · have hlog : log.filter (rule.keeps now) ++ [now] = log := congrArg Prod.fst (heq.symm.trans h)
    have hlen : (log.filter (rule.keeps now)).length = (log.filter (rule.keeps now)).length + 1 := by
      conv_lhs => rw [← hlog]
      rw [List.filter_append, rule.filter_filter_keeps (le_refl now), List.length_append,
        List.filter_cons_of_pos hnow, List.filter_nil, List.length_singleton]
    omega
  · exact absurd (congrArg Prod.snd (heq.symm.trans h)) (by simp)

end Home.RateLimit
