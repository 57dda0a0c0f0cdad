import ManageOurHome.Budget.Entries

/-! @src apps/api/src/budget/alerts.rs | layer:proof | family:budget

    The alerts of a month. A writer under the family's lock reads the totals before and after, and only
    deletions, which take no lock, lower them meanwhile: what it read before is an upper bound of what
    is committed, exact enough as long as every threshold reached has had its alert.

        holder    before ≥ committed ── write ── after: not reached before, reached now ⇒ alert
        deletion                committed goes down -/

namespace Home.Budget

open FiniteMap ReadCommitted Relation

variable {U E C I : Type*} [DecidableEq U] [DecidableEq E] [DecidableEq C] [DecidableEq I]

/-- The settings seen, the defaults until the row is written. -/
def settingsOf (rows : Rows U E C I) : Settings :=
  match rows.get .settings with
  | some (.settings s) => s
  | _ => .default

def categoryCap (rows : Rows U E C I) (c : C) : Option ℕ :=
  match rows.get (.category c) with
  | some (.category cap) => cap
  | _ => none

/-- The cap a scope is held against, unless its alerts are turned off. -/
def capOf (v : Settings) (caps : C → Option ℕ) : Option C → Option ℕ
  | none => if v.globalCapAlerts then v.cap else none
  | some c => if v.categoryCapAlerts then caps c else none

def thresholdsOf : Option C → List Threshold
  | none => FAMILY_THRESHOLDS
  | some _ => CATEGORY_THRESHOLDS

/-- A threshold to report, once its scope's total is this one. -/
def Due (cap : Option C → Option ℕ) (scope : Option C) (t : Threshold) (totalCents : ℕ) : Prop :=
  t ∈ thresholdsOf scope ∧ ∃ c, cap scope = some c ∧ 0 < c ∧ t.reached totalCents c

instance (cap : Option C → Option ℕ) (scope : Option C) (t : Threshold) (totalCents : ℕ) :
    Decidable (Due cap scope t totalCents) :=
  decidable_of_iff (t ∈ thresholdsOf scope ∧ (cap scope).any fun c => 0 < c && t.reached totalCents c)
    (and_congr_right fun _ => by rw [Option.any_eq_true]; simp)

def Alerted (rows : Rows U E C I) (month : ℤ) (scope : Option C) (t : Threshold) : Prop :=
  (rows.get (.alert month scope t.percent)).isSome

instance (rows : Rows U E C I) (month : ℤ) (scope : Option C) (t : Threshold) :
    Decidable (Alerted rows month scope t) := inferInstanceAs (Decidable (_ = true))

/-- Each threshold the month has reached has had its alert. -/
def AllAlerted (cal : Calendar) (month : ℤ) (rows : Rows U E C I) : Prop :=
  ∀ scope t, Due (capOf (settingsOf rows) (categoryCap rows)) scope t (total cal month scope rows) →
    Alerted rows month scope t

/-! ### Totals -/

section

variable {cal : Calendar} {month : ℤ} {scope : Option C} {rows : Rows U E C I}
  {change : FMap (Key U E C I) (Option (Row U C))}

omit [DecidableEq U] [DecidableEq E] [DecidableEq I] in
theorem total_eq_sum (cal : Calendar) (month : ℤ) (scope : Option C) (rows : Rows U E C I) :
    total cal month scope rows = rows.sum fun _ => Row.counts cal month scope := rfl

theorem total_patch_le (h : ∀ k o, change.get k = some o → o.elim 0 (Row.counts cal month scope) ≤
    (rows.get k).elim 0 (Row.counts cal month scope)) :
    total cal month scope (rows.patch change) ≤ total cal month scope rows := FMap.sum_patch_le h

/-- Writes that count for nothing leave no total higher. -/
theorem total_patch_le_of_zero
    (h : ∀ k o, change.get k = some o → o.elim 0 (Row.counts cal month scope) = 0) :
    total cal month scope (rows.patch change) ≤ total cal month scope rows :=
  total_patch_le fun k o ho => by rw [h k o ho]; exact Nat.zero_le _

omit [DecidableEq C] in
theorem Threshold.reached_mono {t : Threshold} {a b cap : ℕ} (hab : a ≤ b)
    (h : t.reached a cap = true) : t.reached b cap = true := by
  cases t <;> simp only [Threshold.reached, decide_eq_true_iff] at * <;> omega

omit [DecidableEq C] in
theorem Due.mono {cap : Option C → Option ℕ} {t : Threshold} {a b : ℕ} (h : Due cap scope t a)
    (hab : a ≤ b) : Due cap scope t b := by
  obtain ⟨ht, c, hc, hpos, hreached⟩ := h
  exact ⟨ht, c, hc, hpos, Threshold.reached_mono hab hreached⟩

omit [DecidableEq C] in
theorem mem_crossed {cap : Option C → Option ℕ} {t : Threshold} {before after : ℕ} :
    t ∈ crossed (thresholdsOf scope) before after (cap scope) ↔
      ¬Due cap scope t before ∧ Due cap scope t after := by
  rw [crossed]
  rcases hcap : cap scope with _ | c
  · simp [Due, hcap]
  · by_cases hc : 0 < c
    · rw [Option.filter_some, if_pos (by simpa using hc)]
      simp only [Due, hcap, List.mem_filter, Bool.and_eq_true, Bool.not_eq_true', Option.some.injEq,
        exists_eq_left', hc, true_and]
      constructor
      · rintro ⟨ht, hbefore, hafter⟩
        exact ⟨fun h => absurd h.2 (by simp [hbefore]), ht, hafter⟩
      · rintro ⟨hbefore, ht, hafter⟩
        exact ⟨ht, by simpa using fun h => hbefore ⟨ht, h⟩, hafter⟩
    · rw [Option.filter_some, if_neg (by simpa using hc)]
      simp [Due, hcap, hc]

omit [DecidableEq C] in
/-- What a total crosses, it crosses upward. -/
theorem Due.lt {cap : Option C → Option ℕ} {t : Threshold} {before after : ℕ}
    (hbefore : ¬Due cap scope t before) (hafter : Due cap scope t after) : before < after := by
  by_contra hle
  exact hbefore (hafter.mono (not_lt.mp hle))

end

/-! ### What a transaction knows of the totals -/

section

variable (cal : Calendar) (month : ℤ) (v : Settings) (caps : C → Option ℕ)

/-- The caps and the switches stay what they are. -/
structure Constant (rows : Rows U E C I) : Prop where
  settings : settingsOf rows = v
  category : ∀ c, categoryCap rows c = caps c

/-- The total of the scope read before the write. -/
def Watch.saw (watch : Watch C) : Option C → ℕ → Prop
  | none, before => before = watch.family
  | some c, before => before = watch.ofCategory ∧ ∃ cap, watch.category = some (c, cap)

/-- The category whose cap a write may cross. -/
def Write.watched (w : Write U E C I) : Option (C × ℕ) :=
  w.change.category.bind fun c => (capOf v caps (some c)).map ((c, ·))

variable {v caps} in
omit [DecidableEq U] [DecidableEq E] [DecidableEq C] [DecidableEq I] in
theorem watched_cap {w : Write U E C I} {c : C} {cap : ℕ} (h : w.watched v caps = some (c, cap)) :
    capOf v caps (some c) = some cap := by
  rw [Write.watched, Option.bind_eq_some_iff] at h
  obtain ⟨c', _, h⟩ := h
  obtain ⟨cap', hcap, heq⟩ := Option.map_eq_some_iff.mp h
  obtain ⟨rfl, rfl⟩ := Prod.mk.inj heq
  exact hcap

/-- A watch holds the caps, and totals that were no lower; what they had reached has had its alert. -/
structure Watch.Right (rows : Rows U E C I) (w : Write U E C I) (watch : Watch C) : Prop where
  before : ∀ scope before, watch.saw scope before → total cal month scope rows ≤ before ∧
    ∀ t, Due (capOf v caps) scope t before → Alerted rows month scope t
  month : watch.month = month
  familyCap : watch.familyCap = capOf v caps none
  category : watch.category = w.watched v caps

/-- The expense is held, and in this category. -/
def Held (seen : Rows U E C I) (pending : FMap (Key U E C I) (Option (Row U C))) (e : E)
    (category : Option C) : Prop :=
  (pending.get (.entry e)).isSome ∧ ∀ old, seen.get (.entry e) = some (.entry old) →
    old.category = category

/-- A price set again keeps the category read. -/
def Write.Priced (seen : Rows U E C I) (pending : FMap (Key U E C I) (Option (Row U C)))
    (w : Write U E C I) : Prop :=
  match w.change with
  | .price _ _ _ category => Held seen pending w.id category
  | _ => True

/-- After the expense is written, `rows` committed and `seen` seen: only the totals watched are higher. -/
def Write.After (rows seen : Rows U E C I) (w : Write U E C I) : Option (Watch C) → Prop
  | none => ∀ scope, capOf v caps scope ≠ none → total cal month scope seen ≤ total cal month scope rows
  | some watch => watch.Right cal month v caps rows w ∧ ∀ scope, scope ≠ none →
      scope ≠ w.change.category → total cal month scope seen ≤ total cal month scope rows

/-- The alerts to send are of totals now higher; every other threshold reached has had its own. -/
structure Judged (rows seen : Rows U E C I) (alerts : List (Option C × Threshold)) : Prop where
  higher : ∀ a ∈ alerts, total cal month a.1 rows < total cal month a.1 seen
  due : ∀ scope t, Due (capOf v caps) scope t (total cal month scope seen) →
    Alerted seen month scope t ∨ ∃ a ∈ alerts, a.1 = scope ∧ a.2.percent = t.percent

/-- What holds statement by statement. -/
def Pc.knows (rows seen : Rows U E C I) (pending : FMap (Key U E C I) (Option (Row U C))) :
    Pc U E C I → Prop
  | .redating _ _ (some (e, category)) => Held seen pending e category
  | .watching w => w.Priced seen pending
  | .settling (.watching w) | .locking (.watching w) =>
    w.Priced seen pending ∧ cal.monthOf w.change.spentAt = month
  | .capping w s => w.Priced seen pending ∧ cal.monthOf w.change.spentAt = month ∧ s = v
  | .totalling w familyCap category => w.Priced seen pending ∧
    cal.monthOf w.change.spentAt = month ∧ familyCap = capOf v caps none ∧ category = w.watched v caps
  | .writing w none => w.Priced seen pending ∧ (cal.monthOf w.change.spentAt = month →
    capOf v caps none = none ∧ w.watched v caps = none)
  | .writing w (some watch) => w.Priced seen pending ∧ watch.Right cal month v caps rows w
  | .finding w watch _ | .taking w watch _ | .dropping w watch _ | .adding w watch _
  | .attaching w watch _ => w.After cal month v caps rows seen watch
  | .firing w watch => w.After cal month v caps rows seen (some watch)
  | .alerting _ m alert rest => m = month ∧ Judged cal month v caps rows seen (alert :: rest)
  | .done _ => Judged cal month v caps rows seen []
  | _ => True

/-- Whether the family's lock is held. -/
def Pc.watches : Pc U E C I → Prop
  | .capping .. | .totalling .. | .writing _ (some _) | .firing .. | .alerting .. => True
  | .writing w none => cal.monthOf w.change.spentAt = month
  | .finding _ watch _ | .taking _ watch _ | .dropping _ watch _ | .adding _ watch _
  | .attaching _ watch _ => watch ≠ none
  | _ => False

/-- Before the expense is written. -/
def Pc.before : Pc U E C I → Prop
  | .finding .. | .taking .. | .dropping .. | .adding .. | .attaching .. | .firing .. | .alerting ..
  | .done _ | .refused _ | .uniqueViolation | .failed => False
  | _ => True

/-- Before any alert is sent. -/
def Pc.silent : Pc U E C I → Prop
  | .alerting .. | .done _ => False
  | _ => True

/-- The local invariant. -/
structure Watching (s : Shared (Key U E C I) (Row U C) E)
    (t : Tx (Key U E C I) (Row U C) Empty (Pc U E C I)) : Prop where
  constant : Constant v caps (t.visible s.rows)
  /-- No alert is taken back. -/
  kept : ∀ m scope percent, t.pending.get (.alert m scope percent) ≠ some none
  silent : t.at_.silent → ∀ m scope percent, t.pending.get (.alert m scope percent) = none
  /-- An alert is sent for a total made higher, when none was. -/
  sent : ∀ m scope percent, (t.pending.get (.alert m scope percent)).isSome → m = month ∧
    total cal month scope s.rows < total cal month scope (t.visible s.rows) ∧
    s.rows.get (.alert m scope percent) = none
  /-- Without the lock, no total is made higher. -/
  lock : (t.pending.get .settings).isSome ∨
    ∀ scope, total cal month scope (t.visible s.rows) ≤ total cal month scope s.rows
  watches : t.at_.watches cal month → (t.pending.get .settings).isSome
  before : t.at_.before → ∀ scope, total cal month scope (t.visible s.rows) = total cal month scope s.rows
  knows : t.at_.knows cal month v caps s.rows (t.visible s.rows) t.pending

/-- The shared invariant. -/
structure Shown (rows : Rows U E C I) : Prop where
  constant : Constant v caps rows
  due : ∀ scope t, Due (capOf v caps) scope t (total cal month scope rows) → Alerted rows month scope t

end

section

variable {cal : Calendar} {month : ℤ} {v : Settings} {caps : C → Option ℕ} {roundCents : ℚ → ℕ}
  {s : Shared (Key U E C I) (Row U C) E} {t t' u : Tx (Key U E C I) (Row U C) Empty (Pc U E C I)}

/-- What another transaction commits moves the totals seen as it moves those committed. -/
theorem total_beside (cal : Calendar) (month : ℤ) (s : Shared (Key U E C I) (Row U C) E)
    (hapart : t.Apart u) (a : E) (scope : Option C) :
    total cal month scope (t.visible (s.commit u a).rows) + total cal month scope s.rows =
      total cal month scope (t.visible s.rows) + total cal month scope (s.commit u a).rows :=
  FMap.sum_patch_patch fun _ _ hk => hapart.symm.get_eq_none hk

theorem visible_of_pending (rows : Rows U E C I) {rows' : Rows U E C I} {k : Key U E C I}
    (h : (t.pending.get k).isSome) : (t.visible rows').get k = (t.visible rows).get k := by
  obtain ⟨o, ho⟩ := Option.isSome_iff_exists.mp h
  rw [Tx.visible, Tx.visible, FMap.get_patch, FMap.get_patch, ho]
  rfl

theorem visible_of_free {rows : Rows U E C I} {k : Key U E C I} (h : t.pending.get k = none) :
    (t.visible rows).get k = rows.get k := by
  rw [Tx.visible, FMap.get_patch, h]
  rfl

/-- An alert committed is an alert seen. -/
theorem Watching.alerted (h : Watching cal month v caps s t) {m : ℤ} {scope : Option C} {x : Threshold}
    (hx : Alerted s.rows m scope x) : Alerted (t.visible s.rows) m scope x := by
  rw [Alerted, Tx.visible, FMap.get_patch]
  rcases ho : t.pending.get (.alert m scope x.percent) with _ | _ | r
  · exact hx
  · exact absurd ho (h.kept m scope x.percent)
  · rfl

omit [DecidableEq U] [DecidableEq E] [DecidableEq C] [DecidableEq I] in
theorem Constant.of_get {rows rows' : Rows U E C I} (h : Constant v caps rows)
    (hsettings : rows'.get .settings = rows.get .settings)
    (hcategory : ∀ c, rows'.get (.category c) = rows.get (.category c)) : Constant v caps rows' where
  settings := by
    rw [settingsOf, hsettings]
    exact h.settings
  category c := by
    rw [categoryCap, hcategory]
    exact h.category c

theorem Watch.Right.beside {w : Write U E C I} {watch : Watch C}
    (h : watch.Right cal month v caps s.rows w) (hu : Watching cal month v caps s u)
    (hfree : u.pending.get .settings = none) (a : E) :
    watch.Right cal month v caps (s.commit u a).rows w where
  before scope before hsaw := by
    obtain ⟨hle, hdue⟩ := h.before scope before hsaw
    have hlower : total cal month scope (s.commit u a).rows ≤ total cal month scope s.rows :=
      (hu.lock.resolve_left (by rw [hfree]; simp)) scope
    exact ⟨hlower.trans hle, fun x hx => hu.alerted (hdue x hx)⟩
  month := h.month
  familyCap := h.familyCap
  category := h.category

theorem alerted_beside (hu : Watching cal month v caps s u) (a : E) {m : ℤ} {scope : Option C}
    {x : Threshold} (hx : Alerted (t.visible s.rows) m scope x) :
    Alerted (t.visible (s.commit u a).rows) m scope x := by
  rcases ho : t.pending.get (.alert m scope x.percent) with _ | o
  · rw [Alerted, visible_of_free ho] at *
    exact hu.alerted hx
  · rw [Alerted, visible_of_pending _ (by rw [ho]; rfl)]
    exact hx

theorem Write.Priced.beside {rows rows' : Rows U E C I} {w : Write U E C I}
    (h : w.Priced (t.visible rows) t.pending) : w.Priced (t.visible rows') t.pending := by
  rw [Priced] at *
  split
  · rename_i hchange
    rw [hchange] at h
    exact ⟨h.1, fun old hold => h.2 old (by rw [← hold, visible_of_pending _ h.1])⟩
  · trivial

/-- A price stays what it was about, under writes that leave the expense as it is seen. -/
theorem Write.Priced.merge {seen : Rows U E C I} {pending change : FMap (Key U E C I) (Option (Row U C))}
    {w : Write U E C I} (h : w.Priced seen pending)
    (hsame : (seen.patch change).get (.entry w.id) = seen.get (.entry w.id)) :
    w.Priced (seen.patch change) (pending.merge change) := by
  rw [Priced] at *
  split
  · rename_i hchange
    rw [hchange] at h
    refine ⟨?_, fun old hold => h.2 old (hsame ▸ hold)⟩
    rw [FMap.get_merge]
    rcases change.get (.entry w.id) with _ | o
    · exact h.1
    · rfl
  · trivial

section

variable (h : Watching cal month v caps s t) (hu : Watching cal month v caps s u)
  (hapart : t.Apart u) (a : E)

include hu hapart

/-- While the family's lock is held, the others only lower the totals. -/
theorem total_beside_le (hheld : (t.pending.get .settings).isSome) (scope : Option C) :
    total cal month scope (t.visible (s.commit u a).rows) ≤ total cal month scope (t.visible s.rows) := by
  obtain ⟨o, ho⟩ := Option.isSome_iff_exists.mp hheld
  have hlower : total cal month scope (s.commit u a).rows ≤ total cal month scope s.rows :=
    (hu.lock.resolve_left (by rw [hapart.symm.get_eq_none ho]; simp)) scope
  have := total_beside cal month s hapart a scope
  omega

theorem Write.After.beside {w : Write U E C I} {watch : Option (Watch C)}
    (hafter : w.After cal month v caps s.rows (t.visible s.rows) watch)
    (hheld : watch ≠ none → (t.pending.get .settings).isSome) :
    w.After cal month v caps (s.commit u a).rows (t.visible (s.commit u a).rows) watch := by
  have hd := fun scope => total_beside cal month s hapart a scope
  cases watch with
  | none =>
    intro scope hscope
    have := hafter scope hscope
    have := hd scope
    omega
  | some watch =>
    obtain ⟨o, ho⟩ := Option.isSome_iff_exists.mp (hheld (by simp))
    refine ⟨hafter.1.beside hu (hapart.symm.get_eq_none ho) a, fun scope hne hne' => ?_⟩
    have := hafter.2 scope hne hne'
    have := hd scope
    omega

include h

theorem Judged.beside {alerts : List (Option C × Threshold)}
    (hj : Judged cal month v caps s.rows (t.visible s.rows) alerts)
    (hshown : Shown cal month v caps (s.commit u a).rows)
    (hkept : ∀ {m : ℤ} {scope : Option C} {x : Threshold}, Alerted (s.commit u a).rows m scope x →
      Alerted (t.visible (s.commit u a).rows) m scope x) :
    Judged cal month v caps (s.commit u a).rows (t.visible (s.commit u a).rows) alerts where
  higher x hx := by
    have := hj.higher x hx
    have := total_beside cal month s hapart a x.1
    omega
  due scope x hx := by
    rcases h.lock with hheld | hlower
    · have hdue := hx.mono (total_beside_le hu hapart a hheld scope)
      exact (hj.due scope x hdue).imp_left (alerted_beside hu a)
    · -- no higher than what is committed, whose alerts are all there
      have hle : total cal month scope (t.visible (s.commit u a).rows) ≤
          total cal month scope (s.commit u a).rows := by
        have := hlower scope
        have := total_beside cal month s hapart a scope
        omega
      exact Or.inl (hkept (hshown.due scope x (hx.mono hle)))

/-- What another transaction commits leaves the local invariant. -/
theorem Watching.beside (hshown : Shown cal month v caps (s.commit u a).rows) :
    Watching cal month v caps (s.commit u a) t := by
  have hd := fun scope => total_beside cal month s hapart a scope
  have hkept : ∀ {m : ℤ} {scope : Option C} {x : Threshold}, Alerted (s.commit u a).rows m scope x →
      Alerted (t.visible (s.commit u a).rows) m scope x := fun {m scope x} hx => by
    rcases ho : t.pending.get (.alert m scope x.percent) with _ | _ | r
    · rw [Alerted, visible_of_free ho]
      exact hx
    · exact absurd ho (h.kept m scope x.percent)
    · rw [Alerted, Tx.visible, FMap.get_patch, ho]
      rfl
  refine ⟨⟨?_, fun c => ?_⟩, h.kept, h.silent, fun m scope percent hm => ?_, h.lock.imp_right fun hl scope => ?_,
    h.watches, fun hb scope => ?_, ?_⟩
  · rcases ho : t.pending.get .settings with _ | o
    · rw [settingsOf, visible_of_free ho]
      exact hshown.constant.settings
    · have hpending : (t.pending.get .settings).isSome := by rw [ho]; rfl
      rw [settingsOf, visible_of_pending s.rows hpending]
      exact h.constant.settings
  · rcases ho : t.pending.get (.category c) with _ | o
    · rw [categoryCap, visible_of_free ho]
      exact hshown.constant.category c
    · have hpending : (t.pending.get (.category c)).isSome := by rw [ho]; rfl
      rw [categoryCap, visible_of_pending s.rows hpending]
      exact h.constant.category c
  · obtain ⟨hmonth, hlt, hnone⟩ := h.sent m scope percent hm
    obtain ⟨o, ho⟩ := Option.isSome_iff_exists.mp hm
    refine ⟨hmonth, ?_, ?_⟩
    · have := hd scope
      omega
    · show (u.visible s.rows).get _ = none
      rw [visible_of_free (hapart.symm.get_eq_none ho)]
      exact hnone
  · have := hl scope
    have := hd scope
    omega
  · have := h.before hb scope
    have := hd scope
    omega
  · have hknows := h.knows
    have hwatches := h.watches
    rcases hat : t.at_ with r | d | d | k | k | ⟨d, spentAt, items⟩ | ⟨actor, e, body, role⟩ | p |
      ⟨p, name⟩ | ⟨p, name, linked⟩ | w | ⟨w, s⟩ | ⟨w, familyCap, category⟩ | ⟨w, watch⟩ |
      ⟨w, watch, items⟩ | ⟨w, watch, items⟩ | ⟨w, watch, items⟩ | ⟨w, watch, items⟩ |
      ⟨w, watch, item⟩ | ⟨w, watch⟩ | ⟨id, m, alert, rest⟩ | ⟨actor, e, role⟩ | e | e | _ | _ | id
    all_goals rw [hat] at hknows hwatches
    case settling | locking =>
      cases k with
      | watching w => exact ⟨hknows.1.beside, hknows.2⟩
      | _ => trivial
    case redating =>
      rcases linked with _ | ⟨e, category⟩
      · trivial
      · exact ⟨hknows.1, fun old hold => hknows.2 old (by rw [← hold, visible_of_pending _ hknows.1])⟩
    case watching => exact Write.Priced.beside hknows
    case capping => exact ⟨hknows.1.beside, hknows.2⟩
    case totalling => exact ⟨hknows.1.beside, hknows.2⟩
    case writing =>
      cases watch with
      | none => exact ⟨hknows.1.beside, hknows.2⟩
      | some watch =>
        obtain ⟨o, ho⟩ := Option.isSome_iff_exists.mp (hwatches trivial)
        exact ⟨hknows.1.beside, hknows.2.beside hu (hapart.symm.get_eq_none ho) a⟩
    case finding | taking | dropping | adding | attaching =>
      exact Write.After.beside hu hapart a hknows hwatches
    case firing =>
      have hafter : w.After cal month v caps s.rows (t.visible s.rows) (some watch) := hknows
      exact Write.After.beside hu hapart a hafter fun _ => hwatches trivial
    case alerting => exact ⟨hknows.1, Judged.beside h hu hapart a hknows.2 hshown hkept⟩
    case done => exact Judged.beside h hu hapart a hknows hshown hkept
    all_goals trivial

end

/-! ### Each statement -/

/-- A statement that writes nothing. -/
theorem Watching.go (h : Watching cal month v caps s t) {pc : Pc U E C I}
    (hsilent : pc.silent → t.at_.silent)
    (hwatches : pc.watches cal month → (t.pending.get .settings).isSome)
    (hbefore : pc.before → t.at_.before)
    (hknows : pc.knows cal month v caps s.rows (t.visible s.rows) t.pending) :
    Watching cal month v caps s { t with at_ := pc } where
  constant := h.constant
  kept := h.kept
  silent hs := h.silent (hsilent hs)
  sent := h.sent
  lock := h.lock
  watches := hwatches
  before hb := h.before (hbefore hb)
  knows := hknows

/-- A statement that writes, no alert sent. -/
theorem Watching.written (h : Watching cal month v caps s t) {pc : Pc U E C I}
    {change : FMap (Key U E C I) (Option (Row U C))} (hs : t.at_.silent)
    (halert : ∀ m scope percent, change.get (.alert m scope percent) = none)
    (hconstant : Constant v caps ((t.visible s.rows).patch change))
    (hlock : (t.pending.get .settings).isSome ∨ (change.get .settings).isSome ∨
      ∀ scope, total cal month scope ((t.visible s.rows).patch change) ≤
        total cal month scope (t.visible s.rows))
    (hwatches : pc.watches cal month → (t.pending.get .settings).isSome ∨ (change.get .settings).isSome)
    (hbefore : pc.before → ∀ scope, total cal month scope ((t.visible s.rows).patch change) =
      total cal month scope s.rows)
    (hknows : pc.knows cal month v caps s.rows ((t.visible s.rows).patch change)
      (t.pending.merge change)) :
    Watching cal month v caps s ⟨pc, t.pending.merge change, t.locks⟩ := by
  have hvisible : (⟨pc, t.pending.merge change, t.locks⟩ : Tx _ _ Empty _).visible s.rows =
      (t.visible s.rows).patch change := FMap.patch_merge _ _ _
  have hheld : (t.pending.get .settings).isSome ∨ (change.get .settings).isSome →
      ((t.pending.merge change).get .settings).isSome := fun hk => by
    rw [FMap.get_merge]
    rcases hc : change.get .settings with _ | o
    · rw [hc] at hk
      simpa using hk
    · rfl
  have hnone : ∀ m scope percent, (t.pending.merge change).get (.alert m scope percent) = none :=
    fun m scope percent => by
      rw [FMap.get_merge, halert, h.silent hs]
      rfl
  refine ⟨hvisible ▸ hconstant, fun m scope percent hm => ?_, fun _ => hnone,
    fun m scope percent hm => ?_, ?_, fun hw => hheld (hwatches hw), hvisible ▸ hbefore, hvisible ▸ hknows⟩
  · exact absurd ((hnone m scope percent).symm.trans hm) (by simp)
  · rw [hnone] at hm
    exact absurd hm (by simp)
  · rw [hvisible]
    rcases hlock with hl | hl | hlower
    · exact Or.inl (hheld (Or.inl hl))
    · exact Or.inl (hheld (Or.inr hl))
    · exact h.lock.imp (fun hl => hheld (Or.inl hl)) fun hl scope => (hlower scope).trans (hl scope)

/-- Rows held as they are, no alert among them. -/
theorem Watching.touch (h : Watching cal month v caps s t) (hs : t.at_.silent) (hb : t.at_.before)
    {pc : Pc U E C I} {p : Key U E C I → Row U C → Bool}
    (hp : ∀ m scope percent row, p (.alert m scope percent) row = false)
    (hwatches : pc.watches cal month → (t.pending.get .settings).isSome ∨
      ((FMap.touch p (t.visible s.rows)).get .settings).isSome)
    (hknows : pc.knows cal month v caps s.rows (t.visible s.rows)
      (t.pending.merge (FMap.touch p (t.visible s.rows)))) :
    Watching cal month v caps s
      ⟨pc, t.pending.merge (FMap.touch p (t.visible s.rows)), t.locks⟩ := by
  have hsame := FMap.patch_touch p (t.visible s.rows)
  refine h.written hs (fun m scope percent => ?_) (hsame.symm ▸ h.constant)
    (Or.inr (Or.inr fun scope => by rw [hsame])) hwatches (fun _ => hsame.symm ▸ h.before hb)
    (hsame.symm ▸ hknows)
  by_contra ho
  obtain ⟨o, ho⟩ := Option.ne_none_iff_exists'.mp ho
  obtain ⟨row, _, hrow, _⟩ := FMap.get_touch.mp ho
  exact absurd hrow (by rw [hp]; simp)

/-- Where a statement may lead that says nothing of the totals. -/
structure Pc.Leads (cal : Calendar) (month : ℤ) (v : Settings) (caps : C → Option ℕ)
    (pc : Pc U E C I) : Prop where
  silent : pc.silent
  watches : ¬pc.watches cal month
  knows : ∀ rows seen pending, pc.knows cal month v caps rows seen pending

theorem Watching.read (h : Watching cal month v caps s t) (hs : t.at_.silent) (hb : t.at_.before)
    {pc : Pc U E C I} (hpc : pc.Leads cal month v caps) :
    Watching cal month v caps s { t with at_ := pc } :=
  h.go (fun _ => hs) (fun hw => absurd hw hpc.watches) (fun _ => hb) (hpc.knows _ _ _)

omit [DecidableEq U] [DecidableEq E] [DecidableEq I] in
theorem Pc.Leads.refused (e : AppError) : (Pc.refused e : Pc U E C I).Leads cal month v caps :=
  ⟨trivial, fun h => h, fun _ _ _ => trivial⟩

omit [DecidableEq U] [DecidableEq E] in
theorem Draft.checkItems_leads (d : Draft U E C I) : d.checkItems.Leads cal month v caps := by
  rw [checkItems]
  split
  · split
    · exact .refused _
    · exact ⟨trivial, fun h => h, fun _ _ _ => trivial⟩
    · exact ⟨trivial, fun h => h, fun _ _ _ => trivial⟩
  · exact ⟨trivial, fun h => h, fun _ _ _ => trivial⟩
  · split
    · exact .refused _
    · exact ⟨trivial, fun h => h, fun _ _ _ => trivial⟩

omit [DecidableEq U] [DecidableEq E] in
theorem Draft.checkPayer_leads (d : Draft U E C I) : d.checkPayer.Leads cal month v caps := by
  rw [checkPayer]
  split
  · exact ⟨trivial, fun h => h, fun _ _ _ => trivial⟩
  · exact d.checkItems_leads

omit [DecidableEq U] [DecidableEq E] in
theorem Draft.checkCategory_leads (d : Draft U E C I) : d.checkCategory.Leads cal month v caps := by
  rw [checkCategory]
  split
  · exact ⟨trivial, fun h => h, fun _ _ _ => trivial⟩
  · exact d.checkPayer_leads

omit [DecidableEq U] [DecidableEq E] in
theorem NewEntry.draft_leads (actor : U) (id : E) (body : NewEntry U C I) :
    (body.draft roundCents actor id).Leads cal month v caps := by
  rw [draft]
  split
  · exact .refused _
  · split
    · exact .refused _
    · exact Draft.checkCategory_leads _

omit [DecidableEq U] [DecidableEq E] in
theorem EntryPatch.draft_leads (actor : U) (e : E) (body : EntryPatch U C I) (old : Entry U C) :
    (body.draft roundCents actor e old).Leads cal month v caps := by
  rw [draft]
  split
  · exact .refused _
  · split
    · exact .refused _
    · exact Draft.checkCategory_leads _

theorem Watching.advance_settling (h : Watching cal month v caps s t) {k : After U E C I}
    (hat : t.at_ = .settling k) :
    Watching cal month v caps s ⟨.locking k, t.pending.merge (FMap.insertAt .settings
      (.settings Settings.default) (t.visible s.rows)), t.locks⟩ := by
  have hknows := h.knows
  rw [hat] at hknows
  set change := FMap.insertAt .settings (.settings Settings.default) (t.visible s.rows) with hchange
  -- written only where there was no row
  have hwrite : ∀ k o, change.get k = some o → k = .settings ∧ (t.visible s.rows).get k = none ∧
      o = some (.settings Settings.default) := fun k o ho => by
    rw [hchange, FMap.insertAt] at ho
    split at ho
    · exact absurd ho (by simp)
    · rename_i hnone
      rw [FMap.get_one] at ho
      split at ho
      · rename_i hk
        rw [hk]
        exact ⟨rfl, Option.not_isSome_iff_eq_none.mp hnone, (Option.some.inj ho).symm⟩
      · exact absurd ho (by simp)
  have hother : ∀ k, k ≠ .settings → change.get k = none := fun k hk => by
    by_contra ho
    obtain ⟨o, ho⟩ := Option.ne_none_iff_exists'.mp ho
    exact hk (hwrite k o ho).1
  have hsame : ∀ k, k ≠ .settings → ((t.visible s.rows).patch change).get k = (t.visible s.rows).get k :=
    fun k hk => by
      rw [FMap.get_patch, hother k hk]
      rfl
  have htotal : ∀ scope, total cal month scope ((t.visible s.rows).patch change) =
      total cal month scope (t.visible s.rows) := fun scope =>
    FMap.sum_patch_eq fun k o ho => by
      obtain ⟨_, hnone, rfl⟩ := hwrite k o ho
      rw [hnone]
      rfl
  refine h.written (by rw [hat]; trivial) (fun m scope percent => hother _ (by simp)) ⟨?_, fun c => ?_⟩
    (Or.inr (Or.inr fun scope => (htotal scope).le)) False.elim
    (fun _ scope => (htotal scope).trans (h.before (by rw [hat]; trivial) scope)) ?_
  · rw [← h.constant.settings, settingsOf, settingsOf, FMap.get_patch]
    rcases ho : change.get .settings with _ | o
    · rfl
    · obtain ⟨_, hnone, rfl⟩ := hwrite _ o ho
      rw [hnone]
      rfl
  · rw [categoryCap, hsame _ (by simp)]
    exact h.constant.category c
  · cases k with
    | watching w =>
      have hpriced : w.Priced (t.visible s.rows) t.pending := hknows.1
      exact ⟨hpriced.merge (hsame _ (by simp)), hknows.2⟩
    | _ => trivial

theorem Watching.advance_locking (h : Watching cal month v caps s t) {k : After U E C I}
    (hat : t.at_ = .locking k) :
    Watching cal month v caps s ⟨match (t.visible s.rows).get .settings with
      | some (.settings v) => k.resume v
      | _ => .failed, t.pending.merge (FMap.touch (fun key _ => key = .settings) (t.visible s.rows)),
      t.locks⟩ := by
  have hknows := h.knows
  rw [hat] at hknows
  have hs : t.at_.silent := by rw [hat]; trivial
  have hb : t.at_.before := by rw [hat]; trivial
  have hgo : ∀ pc : Pc U E C I, pc.Leads cal month v caps → Watching cal month v caps s ⟨pc,
      t.pending.merge (FMap.touch (fun key _ => key = .settings) (t.visible s.rows)), t.locks⟩ :=
    fun pc hpc => h.touch hs hb (fun _ _ _ _ => by simp) (fun hw => absurd hw hpc.watches)
      (hpc.knows _ _ _)
  rcases hrow : (t.visible s.rows).get .settings with _ | row
  · exact hgo _ ⟨trivial, fun h => h, fun _ _ _ => trivial⟩
  · cases row with
    | settings v' =>
      cases k with
      | watching w =>
        have hv : v' = v := by
          rw [← h.constant.settings, settingsOf, hrow]
        have hpriced : w.Priced (t.visible s.rows) t.pending := hknows.1
        have hsame := FMap.patch_touch (fun key _ => key = .settings) (t.visible s.rows)
        have hmerge := hpriced.merge (congrArg (·.get (.entry w.id)) hsame)
        rw [hsame] at hmerge
        refine h.touch hs hb (fun _ _ _ _ => by simp) (fun _ => Or.inr ?_) ⟨hmerge, hknows.2, hv⟩
        rw [FMap.get_touch.mpr ⟨_, hrow, by simp, rfl⟩]
        rfl
      | _ => exact hgo _ ⟨trivial, fun h => h, fun _ _ _ => trivial⟩
    | _ => exact hgo _ ⟨trivial, fun h => h, fun _ _ _ => trivial⟩

theorem Watching.advance_rereading (h : Watching cal month v caps s t) {actor : U} {e : E}
    {body : EntryPatch U C I} {role : Groups.Role} (hat : t.at_ = .rereading actor e body role) :
    Watching cal month v caps s ⟨match (t.visible s.rows).get (.entry e) with
      | some (.entry old) =>
        if canModify role (old.createdBy = actor) then body.draft roundCents actor e old
        else .refused .Forbidden
      | _ => .refused .NotFound,
      t.pending.merge (FMap.touch (fun key _ => key = .entry e) (t.visible s.rows)), t.locks⟩ := by
  have hgo : ∀ pc : Pc U E C I, pc.Leads cal month v caps → Watching cal month v caps s ⟨pc,
      t.pending.merge (FMap.touch (fun key _ => key = .entry e) (t.visible s.rows)), t.locks⟩ :=
    fun pc hpc => h.touch (by rw [hat]; trivial) (by rw [hat]; trivial) (fun _ _ _ _ => by simp)
      (fun hw => absurd hw hpc.watches) (hpc.knows _ _ _)
  apply hgo
  split
  · split
    · exact body.draft_leads actor e _
    · exact .refused _
  · exact .refused _

theorem Watching.advance_linking (roundCents : ℚ → ℕ) (h : Watching cal month v caps s t)
    {p : Pricing U E I} {name : Text}
    (hat : t.at_ = .linking p name) {next : FMap (Key U E C I) (Row U C) → Pc U E C I}
    (hcode : code cal roundCents t.at_ = .write (touchLinked p.item) next) :
    Watching cal month v caps s ⟨next (t.visible s.rows),
      t.pending.merge (touchLinked p.item (t.visible s.rows)), t.locks⟩ := by
  have hgo : ∀ pc : Pc U E C I, pc.silent → ¬pc.watches cal month →
      pc.knows cal month v caps s.rows (t.visible s.rows)
        (t.pending.merge (touchLinked p.item (t.visible s.rows))) →
      Watching cal month v caps s ⟨pc, t.pending.merge (touchLinked p.item (t.visible s.rows)), t.locks⟩ :=
    fun pc _ hw hknows => h.touch (by rw [hat]; trivial) (by rw [hat]; trivial) (fun _ _ _ _ => rfl)
      (fun hw' => absurd hw' hw) hknows
  rw [hat] at hcode
  obtain ⟨_, rfl⟩ := Stmt.write.inj hcode
  simp only
  split
  · exact hgo _ trivial (fun h => h) trivial
  · rename_i e he
    split
    · exact hgo _ trivial (fun h => h) trivial
    · refine hgo _ trivial (fun h => h) ⟨?_, fun old hold => by rw [hold]⟩
      -- the expense is one of those held
      have hmem := (p.order.mem_list _ e).mp (List.mem_of_mem_head? he)
      obtain ⟨hlinked, hthere⟩ := Finset.mem_filter.mp hmem
      obtain ⟨row, hrow⟩ := Option.isSome_iff_exists.mp hthere
      have htouch : (touchLinked p.item (t.visible s.rows)).get (.entry e) = some (some row) :=
        FMap.get_touch.mpr ⟨row, hrow, by simpa using hlinked, rfl⟩
      rw [FMap.get_merge, htouch]
      rfl

/-- The write of an expense makes higher no total but those of its month, the family's and its
    category's. -/
theorem Write.total_entry_le {seen : Rows U E C I} {pending : FMap (Key U E C I) (Option (Row U C))}
    {w : Write U E C I} (hpriced : w.Priced seen pending) {scope : Option C}
    (h : cal.monthOf w.change.spentAt = month → scope ≠ none ∧ scope ≠ w.change.category) :
    total cal month scope (seen.patch (w.entry seen)) ≤ total cal month scope seen := by
  have hzero : ∀ e : Entry U C, e.spentAt = w.change.spentAt → e.category = w.change.category →
      e.counts cal month scope = 0 := fun e hspent hcategory => by
    rw [Entry.counts, hspent, hcategory, if_neg]
    rintro ⟨hmonth, hnone | hsome⟩
    · exact (h hmonth).1 hnone
    · exact (h hmonth).2 hsome.symm
  refine total_patch_le fun k o ho => ?_
  rw [Write.entry] at ho
  split at ho
  · rename_i entry hchange
    rw [FMap.insertAt] at ho
    split at ho
    · exact absurd ho (by simp)
    · rw [FMap.get_one] at ho
      split at ho
      · obtain rfl := Option.some.inj ho
        have := hzero entry (by rw [hchange]; rfl) (by rw [hchange]; rfl)
        exact this.le.trans (Nat.zero_le _)
      · exact absurd ho (by simp)
  · obtain ⟨row, hrow, hk, rfl⟩ := FMap.get_updateWhere.mp ho
    obtain rfl := of_decide_eq_true hk
    cases row with
    | entry old =>
      have := hzero (w.change.set old) ?_ ?_
      · exact this.le.trans (Nat.zero_le _)
      · rcases hchange : w.change with _ | _ | _ <;> rfl
      · rcases hchange : w.change with _ | _ | ⟨name, amountCents, spentAt, category⟩
        · rfl
        · rfl
        · rw [Write.Priced, hchange] at hpriced
          exact hpriced.2 old hrow
    | _ => rw [hrow]

omit [DecidableEq U] [DecidableEq E] [DecidableEq I] in
theorem Judged.of_le {rows seen : Rows U E C I} (hshown : Shown cal month v caps rows)
    (hkept : ∀ {scope : Option C} {x : Threshold}, Alerted rows month scope x → Alerted seen month scope x)
    (h : ∀ scope, capOf v caps scope ≠ none → total cal month scope seen ≤ total cal month scope rows) :
    Judged cal month v caps rows seen [] where
  higher x hx := absurd hx List.not_mem_nil
  due scope x hx := by
    have hcap : capOf v caps scope ≠ none := by
      obtain ⟨_, c, hc, _⟩ := hx
      rw [hc]
      simp
    exact Or.inl (hkept (hshown.due scope x (hx.mono (h scope hcap))))

omit [DecidableEq U] [DecidableEq E] [DecidableEq I] in
theorem Write.fire_knows {rows seen : Rows U E C I} {pending : FMap (Key U E C I) (Option (Row U C))}
    {w : Write U E C I} {watch : Option (Watch C)} (hshown : Shown cal month v caps rows)
    (hkept : ∀ {scope : Option C} {x : Threshold}, Alerted rows month scope x → Alerted seen month scope x)
    (h : w.After cal month v caps rows seen watch) :
    (w.fire watch).knows cal month v caps rows seen pending := by
  cases watch with
  | none => exact Judged.of_le hshown hkept h
  | some watch => exact h

omit [DecidableEq U] [DecidableEq E] [DecidableEq I] in
theorem Write.link_knows {rows seen : Rows U E C I} {pending : FMap (Key U E C I) (Option (Row U C))}
    {w : Write U E C I} {watch : Option (Watch C)} (hshown : Shown cal month v caps rows)
    (hkept : ∀ {scope : Option C} {x : Threshold}, Alerted rows month scope x → Alerted seen month scope x)
    (h : w.After cal month v caps rows seen watch) :
    (w.link watch).knows cal month v caps rows seen pending := by
  rw [link]
  split
  · exact fire_knows hshown hkept h
  · exact h
  · exact h

omit [DecidableEq U] [DecidableEq E] [DecidableEq C] [DecidableEq I] in
theorem Write.fire_watches {w : Write U E C I} {watch : Option (Watch C)}
    (h : (w.fire watch).watches cal month) : watch ≠ none := by
  cases watch with
  | none => exact absurd h (fun h => h)
  | some watch => simp

omit [DecidableEq U] [DecidableEq E] [DecidableEq C] [DecidableEq I] in
theorem Write.link_watches {w : Write U E C I} {watch : Option (Watch C)}
    (h : (w.link watch).watches cal month) : watch ≠ none := by
  rw [link] at h
  split at h
  · exact fire_watches h
  · exact h
  · exact h

omit [DecidableEq U] [DecidableEq E] [DecidableEq C] [DecidableEq I] in
theorem Write.fire_before {w : Write U E C I} (watch : Option (Watch C)) : ¬(w.fire watch).before := by
  cases watch <;> exact fun h => h

omit [DecidableEq U] [DecidableEq E] [DecidableEq C] [DecidableEq I] in
theorem Write.link_before {w : Write U E C I} (watch : Option (Watch C)) : ¬(w.link watch).before := by
  rw [link]
  split
  · exact fire_before watch
  · exact fun h => h
  · exact fun h => h

/-- The write is of a month not watched, of caps not watched, or made with its watch in hand. -/
theorem Write.After.of_knows {rows seen : Rows U E C I} {pending : FMap (Key U E C I) (Option (Row U C))}
    {w : Write U E C I} {watch : Option (Watch C)}
    (hknows : (Pc.writing w watch).knows cal month v caps rows seen pending)
    (hsame : ∀ scope, total cal month scope seen = total cal month scope rows) :
    w.After cal month v caps rows (seen.patch (w.entry seen)) watch := by
  cases watch with
  | none =>
    have hpriced : w.Priced seen pending := hknows.1
    intro scope hscope
    rw [← hsame]
    refine total_entry_le hpriced fun hmonth => ?_
    obtain ⟨hnone, hwatched⟩ := hknows.2 hmonth
    refine ⟨fun h => hscope (h ▸ hnone), fun h => ?_⟩
    rcases scope with _ | c
    · exact hscope hnone
    · rw [Write.watched, ← h, Option.bind_some, Option.map_eq_none_iff] at hwatched
      exact hscope hwatched
  | some watch =>
    have hpriced : w.Priced seen pending := hknows.1
    refine ⟨hknows.2, fun scope hnone hcategory => ?_⟩
    rw [← hsame]
    exact total_entry_le hpriced fun _ => ⟨hnone, hcategory⟩

theorem Watching.advance_writing (h : Watching cal month v caps s t)
    (hshown : Shown cal month v caps s.rows) {w : Write U E C I} {watch : Option (Watch C)}
    (hat : t.at_ = .writing w watch) :
    Watching cal month v caps s ⟨match w.change with
      | .insert _ => if ((t.visible s.rows).get (.entry w.id)).isSome then .failed else w.link watch
      | _ => if ((t.visible s.rows).get (.entry w.id)).isSome then w.link watch else .failed,
      t.pending.merge (w.entry (t.visible s.rows)), t.locks⟩ := by
  have hknows := h.knows
  have hwatches := h.watches
  rw [hat] at hknows hwatches
  have hsame := h.before (by rw [hat]; trivial)
  have hpriced : w.Priced (t.visible s.rows) t.pending := by
    cases watch <;> exact hknows.1
  have hafter := Write.After.of_knows hknows hsame
  have hkey : ∀ k, k ≠ .entry w.id → (w.entry (t.visible s.rows)).get k = none := fun k hk => by
    by_contra ho
    obtain ⟨o, ho⟩ := Option.ne_none_iff_exists'.mp ho
    rw [Write.entry] at ho
    split at ho
    · rw [FMap.insertAt] at ho
      split at ho
      · exact absurd ho (by simp)
      · rw [FMap.get_one, if_neg hk] at ho
        exact absurd ho (by simp)
    · obtain ⟨_, _, hp, _⟩ := FMap.get_updateWhere.mp ho
      exact hk (of_decide_eq_true hp)
  have hget : ∀ k, k ≠ .entry w.id →
      ((t.visible s.rows).patch (w.entry (t.visible s.rows))).get k = (t.visible s.rows).get k :=
    fun k hk => by
      rw [FMap.get_patch, hkey k hk]
      rfl
  have hlock : (t.pending.get .settings).isSome ∨ ((w.entry (t.visible s.rows)).get .settings).isSome ∨
      ∀ scope, total cal month scope ((t.visible s.rows).patch (w.entry (t.visible s.rows))) ≤
        total cal month scope (t.visible s.rows) := by
    cases watch with
    | some watch => exact Or.inl (hwatches trivial)
    | none =>
      by_cases hmonth : cal.monthOf w.change.spentAt = month
      · exact Or.inl (hwatches hmonth)
      · exact Or.inr (Or.inr fun scope => Write.total_entry_le hpriced fun h => absurd h hmonth)
  have hgo : ∀ pc : Pc U E C I, (pc.watches cal month → watch ≠ none) → ¬pc.before →
      pc.knows cal month v caps s.rows ((t.visible s.rows).patch (w.entry (t.visible s.rows)))
        (t.pending.merge (w.entry (t.visible s.rows))) →
      Watching cal month v caps s ⟨pc, t.pending.merge (w.entry (t.visible s.rows)), t.locks⟩ :=
    fun pc hw hb hpc => h.written (by rw [hat]; trivial) (fun m scope percent => hkey _ (by simp))
      (h.constant.of_get (hget _ (by simp)) fun c => hget _ (by simp)) hlock
      (fun hw' => Or.inl (by
        obtain ⟨watch, rfl⟩ := Option.ne_none_iff_exists'.mp (hw hw')
        exact hwatches trivial))
      (fun hb' => absurd hb' hb) hpc
  have hfailed := hgo .failed False.elim (fun h => h) trivial
  have hlink := hgo (w.link watch) Write.link_watches (Write.link_before watch)
    (Write.link_knows hshown (fun hx => by
      have := h.alerted hx
      rw [Alerted, hget _ (by simp)]
      exact this) hafter)
  split
  · split
    · exact hfailed
    · exact hlink
  · split
    · exact hlink
    · exact hfailed

/-- Writes that count for nothing and leave the settings, the categories and the alerts. -/
structure Minor (change : FMap (Key U E C I) (Option (Row U C))) : Prop where
  zero : ∀ k o, change.get k = some o → o = none ∨ o = some .link
  settings : change.get .settings = none
  category : ∀ c, change.get (.category c) = none
  alert : ∀ m scope percent, change.get (.alert m scope percent) = none

theorem Minor.total_le {change : FMap (Key U E C I) (Option (Row U C))} (h : Minor change)
    (rows : Rows U E C I) (scope : Option C) :
    total cal month scope (rows.patch change) ≤ total cal month scope rows :=
  total_patch_le_of_zero fun k o ho => by
    rcases h.zero k o ho with rfl | rfl <;> rfl

theorem Watching.minor (h : Watching cal month v caps s t) (hs : t.at_.silent) {pc : Pc U E C I}
    {change : FMap (Key U E C I) (Option (Row U C))} (hminor : Minor change)
    (hwatches : pc.watches cal month → (t.pending.get .settings).isSome) (hbefore : ¬pc.before)
    (hknows : pc.knows cal month v caps s.rows ((t.visible s.rows).patch change)
      (t.pending.merge change)) :
    Watching cal month v caps s ⟨pc, t.pending.merge change, t.locks⟩ := by
  have hget : ∀ k, change.get k = none →
      ((t.visible s.rows).patch change).get k = (t.visible s.rows).get k := fun k hk => by
    rw [FMap.get_patch, hk]
    rfl
  exact h.written hs hminor.alert
    (h.constant.of_get (hget _ hminor.settings) fun c => hget _ (hminor.category c))
    (Or.inr (Or.inr (hminor.total_le _))) (fun hw => Or.inl (hwatches hw))
    (fun hb => absurd hb hbefore) hknows

theorem Watching.alerted_patch (h : Watching cal month v caps s t)
    {change : FMap (Key U E C I) (Option (Row U C))} (hminor : Minor change) {scope : Option C}
    {x : Threshold} (hx : Alerted s.rows month scope x) :
    Alerted ((t.visible s.rows).patch change) month scope x := by
  have hseen := h.alerted hx
  rw [Alerted, FMap.get_patch, hminor.alert]
  exact hseen

theorem Write.After.minor {rows seen : Rows U E C I} {w : Write U E C I} {watch : Option (Watch C)}
    {change : FMap (Key U E C I) (Option (Row U C))}
    (h : w.After cal month v caps rows seen watch) (hminor : Minor change) :
    w.After cal month v caps rows (seen.patch change) watch := by
  cases watch with
  | none => exact fun scope hscope => (hminor.total_le _ scope).trans (h scope hscope)
  | some watch =>
    exact ⟨h.1, fun scope hne hne' => (hminor.total_le _ scope).trans (h.2 scope hne hne')⟩

omit [DecidableEq U] [DecidableEq E] [DecidableEq C] [DecidableEq I] in
theorem minor_empty : Minor (FMap.empty : FMap (Key U E C I) (Option (Row U C))) :=
  ⟨fun _ _ ho => absurd ho (by simp), rfl, fun _ => rfl, fun _ _ _ => rfl⟩

omit [DecidableEq U] [DecidableEq E] [DecidableEq C] [DecidableEq I] in
theorem minor_deleteWhere {p : Key U E C I → Row U C → Bool} {rows : Rows U E C I}
    (hsettings : ∀ row, p .settings row = false) (hcategory : ∀ c row, p (.category c) row = false)
    (halert : ∀ m scope percent row, p (.alert m scope percent) row = false) :
    Minor (FMap.deleteWhere p rows) := by
  have hnone : ∀ k, (∀ row, p k row = false) → (FMap.deleteWhere p rows).get k = none := fun k hk => by
    by_contra ho
    obtain ⟨o, ho⟩ := Option.ne_none_iff_exists'.mp ho
    obtain ⟨_, row, _, hrow⟩ := FMap.get_deleteWhere.mp ho
    exact absurd hrow (by rw [hk]; simp)
  exact ⟨fun k o ho => Or.inl (FMap.get_deleteWhere.mp ho).1, hnone _ hsettings,
    fun c => hnone _ (hcategory c), fun m scope percent => hnone _ (halert m scope percent)⟩

theorem Watching.deleteWhere (h : Watching cal month v caps s t) (hs : t.at_.silent) {pc : Pc U E C I}
    {p : Key U E C I → Row U C → Bool} (hsettings : ∀ row, p .settings row = false)
    (hcategory : ∀ c row, p (.category c) row = false)
    (halert : ∀ m scope percent row, p (.alert m scope percent) row = false)
    (hwatches : pc.watches cal month → (t.pending.get .settings).isSome) (hbefore : ¬pc.before)
    (hknows : Minor (FMap.deleteWhere p (t.visible s.rows)) →
      pc.knows cal month v caps s.rows ((t.visible s.rows).patch (FMap.deleteWhere p (t.visible s.rows)))
        (t.pending.merge (FMap.deleteWhere p (t.visible s.rows)))) :
    Watching cal month v caps s ⟨pc, t.pending.merge (FMap.deleteWhere p (t.visible s.rows)), t.locks⟩ := by
  have hminor : Minor (FMap.deleteWhere p (t.visible s.rows)) := minor_deleteWhere hsettings hcategory halert
  exact h.minor hs hminor hwatches hbefore (hknows hminor)

omit [DecidableEq U] [DecidableEq E] [DecidableEq C] [DecidableEq I] in
theorem minor_link {change : FMap (Key U E C I) (Option (Row U C))}
    (h : ∀ k o, change.get k = some o → o = some .link ∧ ∃ e i, k = .link e i) : Minor change := by
  have hnone : ∀ k, (∀ e i, k ≠ .link e i) → change.get k = none := fun k hk => by
    by_contra ho
    obtain ⟨o, ho⟩ := Option.ne_none_iff_exists'.mp ho
    obtain ⟨_, e, i, hk'⟩ := h k o ho
    exact hk e i hk'
  exact ⟨fun k o ho => Or.inr (h k o ho).1, hnone _ (by simp), fun _ => hnone _ (by simp),
    fun _ _ _ => hnone _ (by simp)⟩

/-- A statement on the links, after which the alerts may come. -/
theorem Watching.advance_links (h : Watching cal month v caps s t)
    (hshown : Shown cal month v caps s.rows) (hs : t.at_.silent) {w : Write U E C I}
    {watch : Option (Watch C)} {change : FMap (Key U E C I) (Option (Row U C))} (hminor : Minor change)
    (hafter : w.After cal month v caps s.rows (t.visible s.rows) watch)
    (hheld : watch ≠ none → (t.pending.get .settings).isSome) (refused : Prop) [Decidable refused] :
    Watching cal month v caps s
      ⟨if refused then .uniqueViolation else w.fire watch, t.pending.merge change, t.locks⟩ := by
  split
  · exact h.minor hs hminor False.elim (fun h => h) trivial
  · exact h.minor hs hminor (fun hw => hheld (Write.fire_watches hw)) (Write.fire_before watch)
      (Write.fire_knows hshown (h.alerted_patch hminor) (hafter.minor hminor))

omit [DecidableEq U] [DecidableEq E] [DecidableEq I] in
theorem mem_alerts {w : Write U E C I} {watch : Watch C} {rows seen : Rows U E C I}
    (hright : watch.Right cal month v caps rows w) {scope : Option C} {x : Threshold} :
    (scope, x) ∈ watch.alerts (total cal watch.month none seen)
        (watch.category.elim 0 fun c => total cal watch.month (some c.1) seen) ↔
      ∃ before, watch.saw scope before ∧ ¬Due (capOf v caps) scope x before ∧
        Due (capOf v caps) scope x (total cal month scope seen) := by
  have hcategory := hright.category
  rw [Watch.alerts, hright.month, hright.familyCap, List.mem_append, List.mem_map]
  cases scope with
  | none =>
    have hfamily : x ∈ crossed (thresholdsOf (none : Option C)) watch.family (total cal month none seen)
        (capOf v caps none) ↔ _ := mem_crossed
    constructor
    · rintro (⟨y, hy, heq⟩ | hmem)
      · obtain rfl := (Prod.mk.inj heq).2
        exact ⟨_, rfl, hfamily.mp hy⟩
      · rcases hc : watch.category with _ | ⟨c, cap⟩
        · rw [hc] at hmem
          exact absurd hmem List.not_mem_nil
        · rw [hc] at hmem
          obtain ⟨_, _, heq⟩ := List.mem_map.mp hmem
          exact absurd (Prod.mk.inj heq).1 (by simp)
    · rintro ⟨before, rfl, hdue⟩
      exact Or.inl ⟨x, hfamily.mpr hdue, rfl⟩
  | some c =>
    constructor
    · rintro (⟨_, _, heq⟩ | hmem)
      · exact absurd (Prod.mk.inj heq).1 (by simp)
      · rcases hc : watch.category with _ | ⟨c', cap⟩
        · rw [hc] at hmem
          exact absurd hmem List.not_mem_nil
        · rw [hc] at hmem hcategory
          obtain ⟨y, hy, heq⟩ := List.mem_map.mp hmem
          obtain ⟨hsome, rfl⟩ := Prod.mk.inj heq
          obtain rfl := Option.some.inj hsome
          rw [← watched_cap hcategory.symm] at hy
          exact ⟨_, ⟨rfl, cap, hc⟩, mem_crossed.mp hy⟩
    · rintro ⟨before, ⟨rfl, cap, hc⟩, hdue⟩
      rw [hc] at hcategory
      rw [hc]
      refine Or.inr (List.mem_map.mpr ⟨x, ?_, rfl⟩)
      have hcrossed := mem_crossed.mpr hdue
      rw [watched_cap hcategory.symm] at hcrossed
      exact hcrossed

theorem Watching.advance_firing (h : Watching cal month v caps s t)
    (hshown : Shown cal month v caps s.rows) {w : Write U E C I} {watch : Watch C}
    (hat : t.at_ = .firing w watch) :
    Watching cal month v caps s { t with at_ := alertAll w.id watch.month (watch.alerts
      (total cal watch.month none (t.visible s.rows))
      (watch.category.elim 0 fun c => total cal watch.month (some c.1) (t.visible s.rows))) } := by
  have hknows := h.knows
  have hwatches := h.watches
  rw [hat] at hknows hwatches
  obtain ⟨hright, hcalm⟩ : watch.Right cal month v caps s.rows w ∧ ∀ scope, scope ≠ none →
      scope ≠ w.change.category → total cal month scope (t.visible s.rows) ≤
        total cal month scope s.rows := hknows
  have hjudged : Judged cal month v caps s.rows (t.visible s.rows) (watch.alerts
      (total cal watch.month none (t.visible s.rows))
      (watch.category.elim 0 fun c => total cal watch.month (some c.1) (t.visible s.rows))) := by
    refine ⟨fun a ha => ?_, fun scope x hx => ?_⟩
    · obtain ⟨before, hsaw, hnot, hdue⟩ := (mem_alerts hright).mp ha
      exact (hright.before _ _ hsaw).1.trans_lt (Due.lt hnot hdue)
    · by_cases hsaw : ∃ before, watch.saw scope before
      · obtain ⟨before, hsaw⟩ := hsaw
        by_cases hbefore : Due (capOf v caps) scope x before
        · exact Or.inl (h.alerted ((hright.before scope before hsaw).2 x hbefore))
        · exact Or.inr ⟨(scope, x), (mem_alerts hright).mpr ⟨before, hsaw, hbefore, hx⟩, rfl, rfl⟩
      · -- a scope not watched, whose total is no higher
        refine Or.inl (h.alerted (hshown.due scope x (hx.mono (hcalm scope ?_ fun hcat => ?_))))
        · rintro rfl
          exact hsaw ⟨_, rfl⟩
        · rcases scope with _ | c
          · exact hsaw ⟨_, rfl⟩
          · obtain ⟨_, cap, hcap, _⟩ := hx
            refine hsaw ⟨_, rfl, cap, ?_⟩
            rw [hright.category, Write.watched, ← hcat, Option.bind_some, hcap]
            rfl
  refine h.go (fun hs => ?_) (fun _ => hwatches trivial) (fun hb => ?_) ?_
  · rw [hat]
    trivial
  · revert hb
    cases watch.alerts _ _ <;> exact False.elim
  · revert hjudged
    rw [hright.month]
    cases watch.alerts _ _ with
    | nil => exact fun hj => hj
    | cons a rest => exact fun hj => ⟨rfl, hj⟩

theorem Watching.advance_alerting (h : Watching cal month v caps s t) {id : E} {m : ℤ}
    {alert : Option C × Threshold} {rest : List (Option C × Threshold)}
    (hat : t.at_ = .alerting id m alert rest) :
    Watching cal month v caps s ⟨alertAll id m rest, t.pending.merge
      (FMap.insertAt (.alert m alert.1 alert.2.percent) .alert (t.visible s.rows)), t.locks⟩ := by
  have hknows := h.knows
  have hwatches := h.watches
  rw [hat] at hknows hwatches
  obtain ⟨rfl, hjudged⟩ : m = month ∧ Judged cal month v caps s.rows (t.visible s.rows) (alert :: rest) :=
    hknows
  set change := FMap.insertAt (.alert m alert.1 alert.2.percent) .alert (t.visible s.rows) with hchange
  have hwrite : ∀ k o, change.get k = some o → k = .alert m alert.1 alert.2.percent ∧
      (t.visible s.rows).get k = none ∧ o = some .alert := fun k o ho => by
    rw [hchange, FMap.insertAt] at ho
    split at ho
    · exact absurd ho (by simp)
    · rename_i hnone
      rw [FMap.get_one] at ho
      split at ho
      · rename_i hk
        rw [hk]
        exact ⟨rfl, Option.not_isSome_iff_eq_none.mp hnone, (Option.some.inj ho).symm⟩
      · exact absurd ho (by simp)
  have hsent : (((t.visible s.rows).patch change).get (.alert m alert.1 alert.2.percent)).isSome := by
    rw [FMap.get_patch, hchange, FMap.insertAt]
    split
    · rename_i hthere
      exact hthere
    · rw [FMap.get_one, if_pos rfl]
      rfl
  have hother : ∀ k, (∀ m scope percent, k ≠ .alert m scope percent) → change.get k = none :=
    fun k hk => by
      by_contra ho
      obtain ⟨o, ho⟩ := Option.ne_none_iff_exists'.mp ho
      exact hk _ _ _ (hwrite k o ho).1
  have hget : ∀ k, (∀ m scope percent, k ≠ .alert m scope percent) →
      ((t.visible s.rows).patch change).get k = (t.visible s.rows).get k := fun k hk => by
    rw [FMap.get_patch, hother k hk]
    rfl
  have htotal : ∀ scope, total cal m scope ((t.visible s.rows).patch change) =
      total cal m scope (t.visible s.rows) := fun scope =>
    FMap.sum_patch_eq fun k o ho => by
      obtain ⟨_, hnone, rfl⟩ := hwrite k o ho
      rw [hnone]
      rfl
  have hvisible : (⟨(alertAll id m rest : Pc U E C I), t.pending.merge change, t.locks⟩ :
      Tx _ _ Empty _).visible s.rows = (t.visible s.rows).patch change := FMap.patch_merge _ _ _
  have hheld : ((t.pending.merge change).get .settings).isSome := by
    rw [FMap.get_merge, hother _ (by simp)]
    exact hwatches trivial
  have hrest : Judged cal m v caps s.rows ((t.visible s.rows).patch change) rest := by
    refine ⟨fun a ha => ?_, fun scope x hx => ?_⟩
    · rw [htotal]
      exact hjudged.higher a (List.mem_cons_of_mem _ ha)
    · rw [htotal] at hx
      rcases hjudged.due scope x hx with hseen | ⟨a, ha, hscope, hpercent⟩
      · refine Or.inl ?_
        rw [Alerted, FMap.get_patch]
        rcases ho : change.get (.alert m scope x.percent) with _ | o
        · exact hseen
        · rw [(hwrite _ o ho).2.2]
          rfl
      · rcases List.mem_cons.mp ha with rfl | ha
        · refine Or.inl ?_
          rw [Alerted, ← hscope, ← hpercent]
          exact hsent
        · exact Or.inr ⟨a, ha, hscope, hpercent⟩
  refine ⟨hvisible ▸ h.constant.of_get (hget _ (by simp)) fun c => hget _ (by simp),
    fun m' scope percent hm => ?_, fun hs => ?_, fun m' scope percent hm => ?_, Or.inl hheld,
    fun _ => hheld, fun hb => ?_, hvisible ▸ ?_⟩
  · rw [FMap.get_merge] at hm
    rcases ho : change.get (.alert m' scope percent) with _ | o
    · rw [ho] at hm
      exact h.kept m' scope percent hm
    · rw [ho, (hwrite _ o ho).2.2] at hm
      exact absurd hm (by simp)
  · cases rest <;> exact hs.elim
  · rw [hvisible, htotal]
    rw [FMap.get_merge] at hm
    rcases ho : change.get (.alert m' scope percent) with _ | o
    · rw [ho] at hm
      exact h.sent m' scope percent hm
    · obtain ⟨hk, hnone, _⟩ := hwrite _ o ho
      obtain ⟨rfl, rfl, rfl⟩ := Key.alert.inj hk
      refine ⟨rfl, hjudged.higher alert List.mem_cons_self, ?_⟩
      rcases hp : t.pending.get (.alert m' alert.1 alert.2.percent) with _ | _ | r
      · rw [visible_of_free hp] at hnone
        exact hnone
      · exact absurd hp (h.kept _ _ _)
      · rw [Tx.visible, FMap.get_patch, hp] at hnone
        exact absurd hnone (by simp)
  · cases rest <;> exact hb.elim
  · cases rest with
    | nil => exact hrest
    | cons a rest => exact ⟨rfl, hrest⟩

theorem category_watched (h : Constant v caps (t.visible s.rows)) (w : Write U E C I) :
    (if v.categoryCapAlerts then w.change.category.bind fun c =>
        match (t.visible s.rows).get (.category c) with
        | some (.category cap) => cap.map ((c, ·))
        | _ => none
      else none) = w.watched v caps := by
  rw [Write.watched]
  cases hon : v.categoryCapAlerts with
  | false =>
    rcases w.change.category with _ | c
    · rfl
    · simp [capOf, hon]
  | true =>
    rcases w.change.category with _ | c
    · rfl
    · simp only [Option.bind_some, capOf, hon, if_true, ← h.category c, categoryCap]
      split <;> rfl

theorem Watching.advance_totalling (h : Watching cal month v caps s t)
    (hshown : Shown cal month v caps s.rows) {w : Write U E C I} {familyCap : Option ℕ}
    {category : Option (C × ℕ)} (hat : t.at_ = .totalling w familyCap category) :
    Watching cal month v caps s { t with at_ := .writing w (some ⟨cal.monthOf w.change.spentAt, familyCap,
      category, total cal (cal.monthOf w.change.spentAt) none (t.visible s.rows),
      category.elim 0 fun c => total cal (cal.monthOf w.change.spentAt) (some c.1) (t.visible s.rows)⟩) } := by
  have hknows := h.knows
  have hwatches := h.watches
  have hsame := h.before (by rw [hat]; trivial)
  rw [hat] at hknows hwatches
  obtain ⟨hpriced, hmonth, hfamily, hcategory⟩ := hknows
  refine h.go (fun _ => by rw [hat]; trivial) (fun _ => hwatches trivial) (fun _ => by rw [hat]; trivial)
    ⟨hpriced, ⟨fun scope before hsaw => ?_, hmonth, hfamily, hcategory⟩⟩
  have hbefore : before = total cal month scope s.rows := by
    rcases scope with _ | c
    · rw [← hsame, ← hmonth]
      exact hsaw
    · obtain ⟨hb, cap, hc⟩ := hsaw
      have hc : category = some (c, cap) := hc
      rw [← hsame, ← hmonth, hb, hc]
      rfl
  rw [hbefore]
  exact ⟨le_rfl, fun x hx => hshown.due scope x hx⟩

/-- Statements that run in the month. -/
def InMonth (cal : Calendar) (month : ℤ) (s : Shared (Key U E C I) (Row U C) E)
    (_ : Tx (Key U E C I) (Row U C) Empty (Pc U E C I)) : Prop :=
  cal.monthOf (cal.parisDay s.clock) = month

/-- STEP: a statement that runs in the month keeps the local invariant. -/
theorem Watching.advance (h : Watching cal month v caps s t) (hshown : Shown cal month v caps s.rows)
    (hok : InMonth cal month s t) (hadvance : Tx.Advance (code cal roundCents) s t t') :
    Watching cal month v caps s t' := by
  have hknows := h.knows
  have hwatches := h.watches
  have hread : ∀ {next : FMap (Key U E C I) (Row U C) → Pc U E C I}, t.at_.silent → t.at_.before →
      code cal roundCents t.at_ = .query next → (next (t.visible s.rows)).Leads cal month v caps →
      Watching cal month v caps s t' := fun hs hb hc hnext => by
    rw [hadvance.of_query hc]
    exact h.read hs hb hnext
  have hlead : ∀ {pc : Pc U E C I}, pc.silent → ¬pc.watches cal month →
      (∀ rows seen pending, pc.knows cal month v caps rows seen pending) → pc.Leads cal month v caps :=
    fun hs hw hk => ⟨hs, hw, hk⟩
  rcases hat : t.at_ with r | d | d | k | k | ⟨d, spentAt, items⟩ | ⟨actor, e, body, role⟩ | p |
    ⟨p, name⟩ | ⟨p, name, linked⟩ | w | ⟨w, v'⟩ | ⟨w, familyCap, category⟩ | ⟨w, watch⟩ |
    ⟨w, watch, items⟩ | ⟨w, watch, items⟩ | ⟨w, watch, items⟩ | ⟨w, watch, items⟩ |
    ⟨w, watch, item⟩ | ⟨w, watch⟩ | ⟨id, m, alert, rest⟩ | ⟨actor, e, role⟩ | e | e | _ | _ | id
  all_goals
    rw [hat] at hknows hwatches
  case opened =>
    have hs : t.at_.silent := by rw [hat]; trivial
    have hb : t.at_.before := by rw [hat]; trivial
    cases r with
    | create actor id body =>
      refine hread hs hb (by rw [hat]; rfl) ?_
      split
      · exact .refused _
      · exact body.draft_leads actor id
    | update actor e body =>
      refine hread hs hb (by rw [hat]; rfl) ?_
      split
      · exact .refused _
      · exact hlead trivial (fun h => h) fun _ _ _ => trivial
    | price actor id item amount spentAt order =>
      refine hread hs hb (by rw [hat]; rfl) ?_
      split
      · exact .refused _
      · split
        · exact .refused _
        · exact hlead trivial (fun h => h) fun _ _ _ => trivial
    | delete actor e =>
      refine hread hs hb (by rw [hat]; rfl) ?_
      split
      · exact .refused _
      · exact hlead trivial (fun h => h) fun _ _ _ => trivial
  case requiringCategory =>
    refine hread (by rw [hat]; trivial) (by rw [hat]; trivial) (by rw [hat]; rfl) ?_
    split
    · exact d.checkPayer_leads
    · exact .refused _
  case requiringPayer =>
    refine hread (by rw [hat]; trivial) (by rw [hat]; trivial) (by rw [hat]; rfl) ?_
    split
    · exact d.checkItems_leads
    · exact .refused _
  case settling =>
    rw [hadvance.of_write (by rw [hat]; rfl)]
    exact h.advance_settling hat
  case locking =>
    rw [hadvance.of_write (by rw [hat]; rfl)]
    exact h.advance_locking hat
  case dating =>
    rw [hadvance.of_clock (by rw [hat]; rfl)]
    exact h.read (by rw [hat]; trivial) (by rw [hat]; trivial)
      (hlead trivial (fun h => h) fun _ _ _ => trivial)
  case rereading =>
    rw [hadvance.of_write (by rw [hat]; rfl)]
    exact h.advance_rereading hat
  case naming =>
    refine hread (by rw [hat]; trivial) (by rw [hat]; trivial) (by rw [hat]; rfl) ?_
    split
    · exact hlead trivial (fun h => h) fun _ _ _ => trivial
    · exact .refused _
  case linking =>
    rw [hadvance.of_write (by rw [hat]; rfl)]
    exact h.advance_linking roundCents hat (by rw [hat]; rfl)
  case redating =>
    rw [hadvance.of_clock (by rw [hat]; rfl)]
    rcases linked with _ | ⟨e, category⟩
    · exact h.read (by rw [hat]; trivial) (by rw [hat]; trivial)
        (hlead trivial (fun h => h) fun _ _ _ => trivial)
    · exact h.go (fun _ => by rw [hat]; trivial) False.elim (fun _ => by rw [hat]; trivial) hknows
  case watching =>
    have hpriced : w.Priced (t.visible s.rows) t.pending := hknows
    rw [hadvance.of_clock (by rw [hat]; rfl)]
    refine h.go (fun _ => by rw [hat]; trivial) (fun hw => ?_) (fun _ => by rw [hat]; trivial) ?_
    · split at hw
      · exact hw.elim
      · rename_i hne
        exact absurd (Eq.trans hw (Eq.symm hok)) hne
    · split
      · rename_i heq
        exact ⟨hpriced, heq.trans hok⟩
      · rename_i hne
        exact ⟨hpriced, fun hmonth => absurd (hmonth.trans (Eq.symm hok)) hne⟩
  case capping =>
    obtain ⟨hpriced, hmonth, rfl⟩ := hknows
    rw [hadvance.of_query (by rw [hat]; rfl)]
    have hgo : ∀ familyCap category, familyCap = capOf v' caps none → category = w.watched v' caps →
        Watching cal month v' caps s ⟨if familyCap = none ∧ category = none then Pc.writing w none
          else .totalling w familyCap category, t.pending, t.locks⟩ := fun f c hf hc => by
      split
      · rename_i hnone
        exact h.go (fun _ => by rw [hat]; trivial) (fun _ => hwatches trivial)
          (fun _ => by rw [hat]; trivial) ⟨hpriced, fun _ => ⟨hf ▸ hnone.1, hc ▸ hnone.2⟩⟩
      · exact h.go (fun _ => by rw [hat]; trivial) (fun _ => hwatches trivial)
          (fun _ => by rw [hat]; trivial) ⟨hpriced, hmonth, hf, hc⟩
    exact hgo _ _ rfl (category_watched h.constant w)
  case totalling =>
    rw [hadvance.of_query (by rw [hat]; rfl)]
    exact h.advance_totalling hshown hat
  case writing =>
    rw [hadvance.of_write (by rw [hat]; rfl)]
    exact h.advance_writing hshown hat
  case finding =>
    have hafter : w.After cal month v caps s.rows (t.visible s.rows) watch := hknows
    rw [hadvance.of_query (by rw [hat]; rfl)]
    split
    · exact h.go (fun _ => by rw [hat]; trivial) hwatches False.elim hafter
    · exact h.go (fun _ => by rw [hat]; trivial) False.elim False.elim trivial
  case taking =>
    have hafter : w.After cal month v caps s.rows (t.visible s.rows) watch := hknows
    rw [hadvance.of_query (by rw [hat]; rfl)]
    split
    · exact h.go (fun _ => by rw [hat]; trivial) False.elim False.elim trivial
    · exact h.go (fun _ => by rw [hat]; trivial) hwatches False.elim hafter
  case dropping =>
    have hafter : w.After cal month v caps s.rows (t.visible s.rows) watch := hknows
    rw [hadvance.of_write (by rw [hat]; rfl)]
    exact h.deleteWhere (by rw [hat]; trivial) (fun _ => rfl) (fun _ _ => rfl) (fun _ _ _ _ => rfl) hwatches
      (fun h => h) fun hminor => hafter.minor hminor
  case adding =>
    rw [hadvance.of_write (by rw [hat]; rfl)]
    refine h.advance_links hshown (by rw [hat]; trivial) ?_ hknows hwatches _
    split
    · exact minor_empty
    · exact minor_link fun k o ho => by
        obtain ⟨ho, i, _, hk, _⟩ := get_insertLinks.mp ho
        exact ⟨ho, _, i, hk⟩
  case attaching =>
    rw [hadvance.of_write (by rw [hat]; rfl)]
    refine h.advance_links hshown (by rw [hat]; trivial) ?_ hknows hwatches _
    split
    · exact minor_empty
    · refine minor_link fun k o ho => ?_
      rw [FMap.get_one] at ho
      split at ho
      · exact ⟨(Option.some.inj ho).symm, _, _, ‹_›⟩
      · exact absurd ho (by simp)
  case firing =>
    rw [hadvance.of_query (by rw [hat]; rfl)]
    exact h.advance_firing hshown hat
  case alerting =>
    rw [hadvance.of_write (by rw [hat]; rfl)]
    exact h.advance_alerting hat
  case reading =>
    refine hread (by rw [hat]; trivial) (by rw [hat]; trivial) (by rw [hat]; rfl) ?_
    split
    · split
      · exact hlead trivial (fun h => h) fun _ _ _ => trivial
      · exact .refused _
    · exact .refused _
  case deleting =>
    have hsame := h.before (by rw [hat]; trivial)
    rw [hadvance.of_write (by rw [hat]; rfl)]
    refine h.deleteWhere (by rw [hat]; trivial) (fun _ => rfl) (fun _ _ => rfl) (fun _ _ _ _ => rfl) False.elim
      (fun h => h) fun hminor => Judged.of_le hshown (h.alerted_patch hminor) fun scope _ => ?_
    rw [← hsame]
    exact hminor.total_le _ scope
  case refused => exact (hadvance.not_rollback (by rw [hat]; rfl)).elim
  case uniqueViolation => exact (hadvance.not_rollback (by rw [hat]; rfl)).elim
  case failed => exact (hadvance.not_rollback (by rw [hat]; rfl)).elim
  case done => exact (hadvance.not_commit (by rw [hat]; rfl)).elim

theorem Watching.begin (hshown : Shown cal month v caps s.rows) (r : Request U E C I) :
    Watching cal month v caps s (Tx.begin (.opened r)) where
  constant := by
    rw [Tx.visible_of_empty rfl]
    exact hshown.constant
  kept m scope percent := by simp [Tx.begin]
  silent _ m scope percent := rfl
  sent m scope percent hm := absurd hm (by simp [Tx.begin])
  lock := Or.inr fun scope => by rw [Tx.visible_of_empty rfl]
  watches h := False.elim h
  before _ scope := by rw [Tx.visible_of_empty rfl]
  knows := trivial

/-- STEP: a commit leaves each threshold reached its alert. -/
theorem Watching.commit (h : Watching cal month v caps s t) {a : E}
    (hcode : code cal roundCents t.at_ = .commit a) :
    Shown cal month v caps (t.visible s.rows) where
  constant := h.constant
  due scope x hx := by
    have hknows := h.knows
    rw [eq_done hcode] at hknows
    have hjudged : Judged cal month v caps s.rows (t.visible s.rows) [] := hknows
    rcases hjudged.due scope x hx with hseen | ⟨_, hmem, _⟩
    · exact hseen
    · exact absurd hmem List.not_mem_nil

theorem preserved : Preserved (InMonth (U := U) (I := I) cal month) (code cal roundCents) Starts
    (fun s : Shared (Key U E C I) (Row U C) E => Shown cal month v caps s.rows)
    (Watching cal month v caps) where
  tick s c _ hG := hG
  tick_tx s c t _ _ h := ⟨h.constant, h.kept, h.silent, h.sent, h.lock, h.watches, h.before, h.knows⟩
  begin s l hG hstart := by
    obtain ⟨r⟩ := hstart
    exact Watching.begin hG r
  advance s t t' hok hG h hadvance := h.advance hG hok hadvance
  commit s t a _ h hcode := h.commit hcode
  commit_tx s t a u _ h hcode hu hapart := hu.beside h hapart.symm a (h.commit hcode)

end

/-! ### Every interleaving -/

variable {cal : Calendar} {month : ℤ} {roundCents : ℚ → ℕ}

/-- CORRECT: from rows where each threshold reached has had its alert, so it stays in every interleaving
    that runs in the month; an alert stays, and one is sent where none was, by a commit that makes its
    total higher. -/
theorem alerts_kept {τ : Type*} [DecidableEq τ] {rows : Rows U E C I}
    (hstart : AllAlerted cal month rows) (c : ℤ)
    {w : World (Key U E C I) (Row U C) Empty E (Pc U E C I) τ}
    (hrun : ReflTransGen (StepIf (InMonth cal month) (code cal roundCents) Starts)
      (World.start rows c) w) :
    AllAlerted cal month w.rows ∧
    ∀ w', StepIf (InMonth cal month) (code cal roundCents) Starts w w' → ∀ m scope percent,
      ((w.rows.get (.alert m scope percent)).isSome → (w'.rows.get (.alert m scope percent)).isSome) ∧
      ((w.rows.get (.alert m scope percent)).isNone → (w'.rows.get (.alert m scope percent)).isSome →
        m = month ∧ total cal month scope w.rows < total cal month scope w'.rows) := by
  have hshown : Shown cal month (settingsOf rows) (categoryCap rows) rows :=
    ⟨⟨rfl, fun _ => rfl⟩, hstart⟩
  have hholds : Holds (fun s => Shown cal month (settingsOf rows) (categoryCap rows) s.rows)
      (Watching cal month (settingsOf rows) (categoryCap rows)) w :=
    preserved.steps (Holds.idle hshown) hrun
  refine ⟨fun scope x hx => ?_, fun w' hstep m scope percent => ?_⟩
  · have hcaps : categoryCap w.rows = categoryCap rows := funext hholds.shared.constant.category
    rw [hholds.shared.constant.settings, hcaps] at hx
    exact hholds.shared.due scope x hx
  · rcases hstep.rows_eq_or_commit with hrows | ⟨i, t, a, ht, _, hw'⟩
    · rw [hrows]
      refine ⟨fun h => h, fun hnone hsome => ?_⟩
      rw [Option.isNone_iff_eq_none.mp hnone] at hsome
      exact absurd hsome (by simp)
    · have htx := hholds.tx i t ht
      have hrows : w'.rows = t.visible w.rows := congrArg Shared.rows hw'
      rw [hrows]
      rcases hp : t.pending.get (.alert m scope percent) with _ | o
      · rw [visible_of_free hp]
        refine ⟨fun h => h, fun hnone hsome => ?_⟩
        rw [Option.isNone_iff_eq_none.mp hnone] at hsome
        exact absurd hsome (by simp)
      · obtain ⟨hmonth, hlt, hnone⟩ := htx.sent m scope percent (by rw [hp]; rfl)
        exact ⟨fun h => absurd h (by rw [hnone]; simp), fun _ _ => ⟨hmonth, hlt⟩⟩

/-- One month, of days without end. -/
def oneMonth : Calendar := ⟨fun t => t, fun _ => 0⟩

/-- A family of one, under a cap of 100. -/
def capped : Rows ℕ ℕ Empty Empty :=
  (FMap.empty.set (.member 0) (some (.member .owner))).set .settings
    (some (.settings ⟨some 100, true, true⟩))

/-- An expense of 85, entered up to its commit. -/
def reaching : Tx (Key ℕ ℕ Empty Empty) (Row ℕ Empty) Empty
    (Pc ℕ ℕ Empty Empty) :=
  Tx.go (code oneMonth fun _ => 85) 10 ⟨capped, 0, []⟩
    (Tx.begin (.opened (.create 0 2 ⟨['x'], .finite 1, some 3, none, [], none, none⟩)))

/-- The expense reaches 80 % of the cap, and its alert is sent. -/
theorem alerts_kept_reaching : ∃ w : World (Key ℕ ℕ Empty Empty) (Row ℕ Empty) Empty
    ℕ (Pc ℕ ℕ Empty Empty) ℕ,
    total oneMonth 0 none w.rows = 85 ∧ Alerted w.rows 0 none .EightyPercent := by
  have hbegin : StepIf (InMonth oneMonth 0) (code oneMonth fun _ => 85) Starts
      (World.only ⟨capped, 0, []⟩ (0 : ℕ) none) _ :=
    World.beside_begin (Starts.request (.create 0 2 ⟨['x'], .finite 1, some 3, none, [], none, none⟩))
  have hrun := (ReflTransGen.head hbegin (World.only_go (fun _ => rfl) 10 _)).tail
    (World.beside_commit (rfl : code oneMonth (fun _ => 85) reaching.at_ = .commit 2))
  rw [← World.start_eq_only] at hrun
  have hnone : AllAlerted oneMonth 0 capped := by
    rintro (_ | c) t
    · cases t <;> decide
    · exact c.elim
  exact ⟨_, by decide, (alerts_kept hnone 0 hrun).1 none .EightyPercent (by decide)⟩

/-! ### A crossing nobody reports -/

section Missed

/-- Expenses of 65 and 20 under a cap of 100, entered before the month: no alert was sent. -/
def aheadOfMonth : Rows ℕ ℕ Empty Empty :=
  (((FMap.empty.set (.member 0) (some (.member .owner))).set .settings
    (some (.settings ⟨some 100, true, true⟩))).set
    (.entry 0) (some (.entry ⟨0, ['a'], 65, 1, none, none⟩))).set
    (.entry 1) (some (.entry ⟨0, ['b'], 20, 1, none, none⟩))

/-- An expense of 20, entered up to its write: the total read is 85. -/
def entering : Tx (Key ℕ ℕ Empty Empty) (Row ℕ Empty) Empty
    (Pc ℕ ℕ Empty Empty) :=
  Tx.go (code oneMonth fun _ => 20) 7 ⟨aheadOfMonth, 0, []⟩
    (Tx.begin (.opened (.create 0 2 ⟨['x'], .finite 1, some 3, none, [], none, none⟩)))

/-- The expense of 20 there was, deleted. -/
def deletion : Tx (Key ℕ ℕ Empty Empty) (Row ℕ Empty) Empty
    (Pc ℕ ℕ Empty Empty) :=
  Tx.go (code oneMonth fun _ => 20) 3 ⟨aheadOfMonth, 0, []⟩ (Tx.begin (.opened (.delete 0 1)))

/-- The total committed is 65. -/
def deleted : Shared (Key ℕ ℕ Empty Empty) (Row ℕ Empty) ℕ :=
  Shared.commit ⟨aheadOfMonth, 0, []⟩ deletion 1

/-- The expense brings it back to 85, where it was read. -/
def entered : Tx (Key ℕ ℕ Empty Empty) (Row ℕ Empty) Empty
    (Pc ℕ ℕ Empty Empty) := Tx.go (code oneMonth fun _ => 20) 3 deleted entering

theorem alert_missed : ¬∀ (rows : Rows ℕ ℕ Empty Empty) (c : ℤ)
    (w w' : World (Key ℕ ℕ Empty Empty) (Row ℕ Empty) Empty ℕ
      (Pc ℕ ℕ Empty Empty) ℕ),
    ReflTransGen (StepIf (InMonth oneMonth 0) (code oneMonth fun _ => 20) Starts) (World.start rows c) w →
    StepIf (InMonth oneMonth 0) (code oneMonth fun _ => 20) Starts w w' →
    ∀ scope t, ¬Due (capOf (settingsOf w.rows) (categoryCap w.rows)) scope t
        (total oneMonth 0 scope w.rows) →
      Due (capOf (settingsOf w'.rows) (categoryCap w'.rows)) scope t (total oneMonth 0 scope w'.rows) →
      Alerted w'.rows 0 scope t := by
  intro hclaim
  have hbegin : StepIf (InMonth oneMonth 0) (code oneMonth fun _ => 20) Starts
      (World.only ⟨aheadOfMonth, 0, []⟩ (1 : ℕ) none) _ :=
    World.beside_begin (Starts.request (.create 0 2 ⟨['x'], .finite 1, some 3, none, [], none, none⟩))
  have hentering := ReflTransGen.head hbegin (World.only_go (fun _ => rfl) 7 _)
  rw [← World.start_eq_only] at hentering
  -- the deletion comes and goes, apart from what is entered
  have hdeleted : ReflTransGen (StepIf (InMonth oneMonth 0) (code oneMonth fun _ => 20) Starts)
      (World.only ⟨aheadOfMonth, 0, []⟩ 1 (some entering)) (World.only deleted 1 (some entering)) := by
    rw [World.only_eq_beside (by decide : (2 : ℕ) ≠ 1), World.only_eq_beside (by decide : (2 : ℕ) ≠ 1)]
    refine (ReflTransGen.head (World.beside_begin (Starts.request (.delete 0 1)))
      (World.beside_go (fun _ => rfl) 3 _ fun k hk j u _ hu => ?_)).tail
      (World.beside_commit (rfl : code oneMonth (fun _ => 20) deletion.at_ = .commit 1))
    obtain ⟨_, hu⟩ | ⟨_, hu⟩ := of_update hu
    · obtain rfl := Option.some.inj hu
      have hkeys : ∀ k ≤ 3, ∀ key ∈ (Tx.go (code oneMonth fun _ => 20) k ⟨aheadOfMonth, 0, []⟩
          (Tx.begin (.opened (.delete 0 1)))).pending.keys, key ∉ entering.pending.keys := by decide
      exact ⟨fun l _ => l.elim, hkeys k hk⟩
    · exact absurd hu (by simp)
  have hentered := (hentering.trans hdeleted).trans (World.only_go (fun _ => rfl) 3 _)
  have hstep : StepIf (InMonth oneMonth 0) (code oneMonth fun _ => 20) Starts
      (World.only deleted (1 : ℕ) (some entered)) _ := World.beside_commit (rfl : code oneMonth (fun _ => 20) entered.at_ = .commit 2)
  exact absurd (hclaim _ _ _ _ hentered hstep none .EightyPercent (by decide) (by decide)) (by decide)

end Missed

end Home.Budget
