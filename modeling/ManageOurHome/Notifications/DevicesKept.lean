import Mathlib.Data.List.Nodup
import ManageOurHome.Notifications.Devices

/-! @src apps/api/src/notifications/preferences.rs | layer:proof | family:push

    An account's devices stay bounded, and one registered stays registered. The rows of an account change under its own
    lock, or go: its count holds between the `DELETE`'s snapshot and the commit. What the eviction picked may have gone to
    another account meanwhile: it is deleted all the same, from whoever has it. Where no subscription commits on a row
    that an eviction under way has still to come to, that does not happen.

        A: insert 51st ─▶ picks e ────────────────────▶ comes to e ─▶ deleted
        B:          takes e over ─▶ commit, 201 ─▶ … -/

namespace Home.Devices

variable {A : Type} {s s' : Db A} {l l' m : Pc A} {d x y : Device A} {rows : List (Device A)} {a : A}

/-! ### What is claimed -/

section

variable [DecidableEq A]

/-- The account's, with as many of its devices more recently used as it keeps. -/
def PastCeiling (seen : List (Device A)) (a : A) (x : Device A) : Prop :=
  x ∈ seen ∧ x.userId = a ∧
    MAX_DEVICES_PER_ACCOUNT ≤ (seen.filter fun y => decide (y.userId = a) && decide (x.place < y.place)).length

/-- What ends the registration of `endpoint` to `a`: `a` unsubscribes, another account subscribes it, or `a` registers
    another past the ceiling while it is the least recently used. -/
inductive Commit.Ends (a : A) (endpoint : Text) (c : Commit A) : Prop where
  | unsubscribed (h : c.change = .unsubscribed a)
  | takenOver (b : A) (h : c.change = .subscribed b endpoint) (hne : b ≠ a)
  | replaced (other : Text) (h : c.change = .subscribed a other) (hne : other ≠ endpoint) (x : Device A)
      (hx : x.endpoint = endpoint) (hpast : PastCeiling c.seen a x)

/-- KEPT: at most as many devices as an account keeps; an endpoint is of one account; what was registered is, until
    something ends it; a subscription leaves what is of others; and to register one's own device again moves its
    `last_seen_at`. -/
structure Kept (s : Db A) : Prop where
  ceiling : ∀ a, (s.rows.filter fun x => x.userId = a).length ≤ MAX_DEVICES_PER_ACCOUNT
  unique : ∀ x ∈ s.rows, ∀ y ∈ s.rows, x.endpoint = y.endpoint → x = y
  registered : ∀ later c earlier a endpoint, s.log = later ++ c :: earlier → c.change = .subscribed a endpoint →
    (∀ c' ∈ later, ¬c'.Ends a endpoint) → ∃ x ∈ s.rows, x.endpoint = endpoint ∧ x.userId = a
  others : ∀ c ∈ s.log, ∀ a endpoint, c.change = .subscribed a endpoint →
    ∀ x ∈ c.before, x.userId ≠ a → x.endpoint ≠ endpoint → x ∈ c.after
  own : ∀ c ∈ s.log, ∀ a endpoint, c.change = .subscribed a endpoint →
    (∃ x ∈ c.before, x.endpoint = endpoint ∧ x.userId = a) →
    ∃ lastSeenAt, c.after = c.before.map fun x => if x.endpoint = endpoint then { x with lastSeenAt := lastSeenAt } else x

end

/-! ### The table -/

/-- One row an endpoint, each id given for its endpoint. -/
structure Rows (ids : List (ℕ × Text)) (rows : List (Device A)) : Prop where
  endpoints : (rows.map Device.endpoint).Nodup
  given : ∀ x ∈ rows, (x.id, x.endpoint) ∈ ids

/-- A table as the requests keep it. -/
structure Table [DecidableEq A] (s : Db A) : Prop where
  ids : (s.ids.map Prod.fst).Nodup
  rows : Rows s.ids s.rows
  ceiling : ∀ a, (s.rows.filter fun x => x.userId = a).length ≤ MAX_DEVICES_PER_ACCOUNT
  used : ∀ x ∈ s.rows, x.lastUsed ≤ s.clock

variable {ids : List (ℕ × Text)}

theorem Rows.eq_of_endpoint (h : Rows ids rows) (hx : x ∈ rows) (hy : y ∈ rows) (heq : x.endpoint = y.endpoint) : x = y :=
  List.inj_on_of_nodup_map h.endpoints hx hy heq

theorem Rows.nodup (h : Rows ids rows) : rows.Nodup := h.endpoints.of_map _

/-- An id is of one endpoint. -/
theorem endpoint_of_id (hids : (ids.map Prod.fst).Nodup) {id : ℕ} {e e' : Text} (h : (id, e) ∈ ids) (h' : (id, e') ∈ ids) :
    e = e' := (Prod.mk.inj (List.inj_on_of_nodup_map hids h h' rfl)).2

theorem Rows.eq_of_id (h : Rows ids rows) (hids : (ids.map Prod.fst).Nodup) (hx : x ∈ rows) (hy : y ∈ rows)
    (heq : x.id = y.id) : x = y := by
  have hgiven := h.given x hx
  rw [heq] at hgiven
  exact h.eq_of_endpoint hx hy (endpoint_of_id hids hgiven (h.given y hy))

theorem Rows.of_subset (h : Rows ids rows) {rows' : List (Device A)} (hsub : rows'.Sublist rows) : Rows ids rows' :=
  ⟨h.endpoints.sublist (hsub.map _), fun x hx => h.given x (hsub.subset hx)⟩

theorem Rows.place_nodup (h : Rows ids rows) (hids : (ids.map Prod.fst).Nodup) : (rows.map Device.place).Nodup := by
  refine List.Nodup.map_on (fun x hx y hy heq => ?_) h.nodup
  exact h.eq_of_id hids hx hy (Prod.mk.inj (toLex.injective heq)).2

theorem mem_put : x ∈ put d rows ↔ x = d ∨ (x ∈ rows ∧ x.endpoint ≠ d.endpoint) := by
  rw [put]
  split
  · rename_i hany
    obtain ⟨y, hy, heq⟩ := List.any_eq_true.mp hany
    rw [List.mem_map]
    constructor
    · rintro ⟨z, hz, rfl⟩
      split
      · exact .inl rfl
      · rename_i hne
        exact .inr ⟨hz, hne⟩
    · rintro (rfl | ⟨hx, hne⟩)
      · exact ⟨y, hy, if_pos (of_decide_eq_true heq)⟩
      · exact ⟨x, hx, if_neg hne⟩
  · rename_i hnone
    simp only [List.any_eq_true, not_exists, not_and, decide_eq_true_eq] at hnone
    rw [List.mem_append, List.mem_singleton]
    constructor
    · rintro (hx | rfl)
      · exact .inr ⟨hx, hnone x hx⟩
      · exact .inl rfl
    · rintro (rfl | ⟨hx, -⟩)
      · exact .inr rfl
      · exact .inl hx

theorem mem_without {gone : List (Device A)} : x ∈ without gone rows ↔ x ∈ rows ∧ ∀ y ∈ gone, y.id ≠ x.id := by
  rw [without, List.mem_filter, decide_eq_true_eq, List.mem_map]
  simp only [not_exists, not_and]

theorem Rows.put (h : Rows ids rows) (hd : (d.id, d.endpoint) ∈ ids) : Rows ids (put d rows) where
  endpoints := by
    rw [Devices.put]
    split
    · have hsame : (rows.map fun x => if x.endpoint = d.endpoint then d else x).map Device.endpoint =
          rows.map Device.endpoint := by
        rw [List.map_map]
        refine List.map_congr_left fun x _ => ?_
        rw [Function.comp_apply]
        split
        · rename_i heq
          exact heq.symm
        · rfl
      rw [hsame]
      exact h.endpoints
    · rename_i hnone
      simp only [List.any_eq_true, not_exists, not_and, decide_eq_true_eq] at hnone
      rw [List.map_append, List.map_singleton]
      refine List.nodup_append.mpr ⟨h.endpoints, List.nodup_singleton _, ?_⟩
      rintro e he e' he' rfl
      obtain ⟨x, hx, rfl⟩ := List.mem_map.mp he
      exact hnone x hx (List.mem_singleton.mp he')
  given x hx := by
    rcases mem_put.mp hx with rfl | ⟨hx, -⟩
    · exact hd
    · exact h.given x hx

/-! ### What a request knows -/

/-- A row written and not committed: the last used of its account's, and its own account's record but for
    `last_seen_at`. -/
structure Written (s : Db A) (d : Device A) : Prop where
  given : (d.id, d.endpoint) ∈ s.ids
  used : d.lastUsed ≤ s.clock
  recent : ∀ x ∈ s.rows, x.userId = d.userId → x.endpoint ≠ d.endpoint → x.lastUsed < d.lastUsed
  own : ∀ x ∈ s.rows, x.endpoint = d.endpoint → x.userId = d.userId → d = { x with lastSeenAt := d.lastSeenAt }

/-- What a `DELETE` past the ceiling has still to come to. -/
def Pc.left : Pc A → List (Device A)
  | .evicting _ _ _ left => left
  | _ => []

/-- What a step leaves to a request that does not take it. -/
structure Leaves (m : Pc A) (s s' : Db A) : Prop where
  clock : s.clock ≤ s'.clock
  ids : ∀ p ∈ s.ids, p ∈ s'.ids
  nodup : s'.rows.Nodup
  device : ∀ endpoint, (.device endpoint, .update) ∈ m.held → ∀ x, x.endpoint = endpoint → (x ∈ s'.rows ↔ x ∈ s.rows)
  user : ∀ a, (.user a, .update) ∈ m.held → ∀ x ∈ s'.rows, x.userId = a → x ∈ s.rows
  left : ∀ x ∈ m.left, ∀ y ∈ s'.rows, y.id = x.id → y ∈ s.rows

theorem Written.of_leaves (h : Written s d) (hleaves : Leaves m s s') (huser : (.user d.userId, .update) ∈ m.held)
    (hdevice : (.device d.endpoint, .update) ∈ m.held) : Written s' d where
  given := hleaves.ids _ h.given
  used := h.used.trans hleaves.clock
  recent x hx ha := h.recent x (hleaves.user _ huser x hx ha) ha
  own x hx he := h.own x ((hleaves.device _ hdevice x he).mp hx) he

variable [DecidableEq A]

/-- A `DELETE` past the ceiling under way: what it picked is the caller's still, and what it came to. -/
structure Evicting (s : Db A) (d : Device A) (seen reached left : List (Device A)) : Prop where
  given : ∀ x ∈ left, (x.id, x.endpoint) ∈ s.ids
  elsewhere : ∀ x ∈ left, x.endpoint ≠ d.endpoint
  past : ∀ x ∈ left, PastCeiling seen d.userId x
  mine : ∀ x ∈ left, ∀ y ∈ s.rows, y.id = x.id → y.userId = d.userId
  came : ∀ y ∈ reached, y ∈ s.rows ∧ y.endpoint ≠ d.endpoint ∧ y.userId = d.userId ∧
    ∃ x, x.endpoint = y.endpoint ∧ PastCeiling seen d.userId x
  room : (s.rows.filter fun x => decide (x.userId = d.userId ∧ x.endpoint ≠ d.endpoint ∧
    x.id ∉ (reached ++ left).map Device.id)).length < MAX_DEVICES_PER_ACCOUNT
  own : (∃ x ∈ s.rows, x.endpoint = d.endpoint ∧ x.userId = d.userId) → reached = [] ∧ left = []

def Knows (s : Db A) : Pc A → Prop
  | .stamped a _ _ lastSeenAt => lastSeenAt ≤ s.clock ∧ ∀ x ∈ s.rows, x.userId = a → x.lastUsed < lastSeenAt
  | .registered d => Written s d
  | .evicting d seen reached left => Written s d ∧ Evicting s d seen reached left
  | .forgetting _ _ reached _ => ∀ y ∈ reached, y ∈ s.rows
  | _ => True

theorem Evicting.of_leaves {seen reached left : List (Device A)} (h : Evicting s d seen reached left)
    (hleaves : Leaves (.evicting d seen reached left) s s') : Evicting s' d seen reached left where
  given x hx := hleaves.ids _ (h.given x hx)
  elsewhere := h.elsewhere
  past := h.past
  mine x hx y hy hid := h.mine x hx y (hleaves.left x hx y hy hid) hid
  came y hy := by
    have hheld : (Key.device y.endpoint, RowLocks.Mode.update) ∈ (Pc.evicting d seen reached left).held :=
      List.mem_cons_of_mem _ (List.mem_cons_of_mem _ (List.mem_map_of_mem hy))
    exact ⟨(hleaves.device _ hheld y rfl).mpr (h.came y hy).1, (h.came y hy).2⟩
  room := by
    refine lt_of_le_of_lt (List.subperm_of_subset (hleaves.nodup.filter _) fun x hx => ?_).length_le h.room
    obtain ⟨hx, hkeep⟩ := List.mem_filter.mp hx
    have huser := hleaves.user d.userId List.mem_cons_self x hx (of_decide_eq_true hkeep).1
    exact List.mem_filter.mpr ⟨huser, hkeep⟩
  own := by
    rintro ⟨x, hx, he, ha⟩
    exact h.own ⟨x, (hleaves.device d.endpoint (List.mem_cons_of_mem _ List.mem_cons_self) x he).mp hx, he, ha⟩

/-- A request keeps what it knows. -/
theorem Knows.of_leaves (h : Knows s m) (hleaves : Leaves m s s') : Knows s' m := by
  cases m with
  | stamped a endpoint createdAt lastSeenAt =>
    exact ⟨h.1.trans hleaves.clock, fun x hx ha => h.2 x (hleaves.user a List.mem_cons_self x hx ha) ha⟩
  | registered d =>
    exact Written.of_leaves h hleaves List.mem_cons_self (List.mem_cons_of_mem _ List.mem_cons_self)
  | evicting d seen reached left =>
    exact ⟨h.1.of_leaves hleaves List.mem_cons_self (List.mem_cons_of_mem _ List.mem_cons_self), h.2.of_leaves hleaves⟩
  | forgetting a seen reached left =>
    exact fun y hy => (hleaves.device _ (List.mem_map_of_mem hy) y rfl).mpr (h y hy)
  | _ => trivial

/-! ### One statement -/

theorem mem_evicted (h : Rows ids rows) (hids : (ids.map Prod.fst).Nodup) :
    x ∈ evicted rows a ↔ PastCeiling rows a x := by
  have hplace : ((rows.filter fun x => decide (x.userId = a)).map Device.place).Nodup :=
    (h.of_subset List.filter_sublist).place_nodup hids
  rw [evicted, Keyset.mem_drop_newestFirst hplace, List.filter_filter, List.mem_filter, decide_eq_true_eq, PastCeiling,
    and_assoc]
  simp only [Bool.and_comm]

/-- What the `DELETE` leaves to the account. -/
theorem length_not_evicted (rows : List (Device A)) (a : A) :
    (rows.filter fun x => decide (x ∉ evicted rows a) && decide (x.userId = a)).length ≤ MAX_DEVICES_PER_ACCOUNT := by
  rw [← List.filter_filter]
  exact Keyset.length_filter_drop_newestFirst _ _

/-- Within the ceiling, it picks nothing. -/
theorem evicted_eq_nil (h : (rows.filter fun x => decide (x.userId = a)).length ≤ MAX_DEVICES_PER_ACCOUNT) :
    evicted rows a = [] := by
  rw [evicted, List.drop_eq_nil_iff, (Keyset.newestFirst_perm _).length_eq]
  exact h

omit [DecidableEq A] in
theorem lastSeenAt_le_lastUsed (d : Device A) : d.lastSeenAt ≤ d.lastUsed := by
  rw [Device.lastUsed]
  cases d.lastSuccessAt with
  | none => exact le_rfl
  | some t => exact le_max_left _ _

theorem updated_own {createdAt lastSeenAt : ℤ} (h : x.userId = a) :
    x.updated a createdAt lastSeenAt = { x with lastSeenAt := lastSeenAt } := by
  subst h
  simp [Device.updated]

theorem lastUsed_updated {createdAt lastSeenAt clock : ℤ} (hx : x.lastUsed ≤ clock) (hseen : lastSeenAt ≤ clock) :
    (x.updated a createdAt lastSeenAt).lastUsed ≤ clock := by
  by_cases hsame : x.userId = a
  · rw [updated_own hsame]
    rw [Device.lastUsed] at hx ⊢
    dsimp only
    cases hsuccess : x.lastSuccessAt with
    | none => exact hseen
    | some t =>
      rw [hsuccess] at hx
      exact max_le hseen ((le_max_right _ _).trans hx)
  · have hnone : (x.updated a createdAt lastSeenAt).lastSuccessAt = none := by simp [Device.updated, hsame]
    rw [Device.lastUsed, hnone]
    exact hseen

omit [DecidableEq A] in
/-- One's own device, registered again. -/
theorem put_own (h : Rows ids rows) (hd : ∀ x ∈ rows, x.endpoint = d.endpoint → x.userId = d.userId →
    d = { x with lastSeenAt := d.lastSeenAt }) (hown : ∃ x ∈ rows, x.endpoint = d.endpoint ∧ x.userId = d.userId) :
    put d rows = rows.map fun x => if x.endpoint = d.endpoint then { x with lastSeenAt := d.lastSeenAt } else x := by
  obtain ⟨x, hx, he, ha⟩ := hown
  rw [put, if_pos (List.any_eq_true.mpr ⟨x, hx, decide_eq_true he⟩)]
  refine List.map_congr_left fun y hy => ?_
  split
  · rename_i heq
    obtain rfl := h.eq_of_endpoint hx hy (he.trans heq.symm)
    exact hd x hx he ha
  · rfl

/-- STEP: a row to be written is inserted. -/
theorem written_insert {endpoint : Text} {createdAt lastSeenAt : ℤ} {id : ℕ}
    (hknows : Knows s (.stamped a endpoint createdAt lastSeenAt)) (hnew : ∀ x ∈ s.rows, x.endpoint ≠ endpoint) :
    Written { s with ids := (id, endpoint) :: s.ids } (.inserted id a endpoint createdAt lastSeenAt) where
  given := List.mem_cons_self
  used := hknows.1
  recent x hx ha _ := hknows.2 x hx ha
  own x hx he := absurd he (hnew x hx)

/-- STEP: or is the endpoint's, updated. -/
theorem Table.written_update (h : Table s) {createdAt lastSeenAt : ℤ}
    (hknows : Knows s (.stamped a x.endpoint createdAt lastSeenAt)) (hx : x ∈ s.rows) :
    Written s (x.updated a createdAt lastSeenAt) where
  given := h.rows.given x hx
  used := lastUsed_updated (h.used x hx) hknows.1
  recent y hy ha _ := (hknows.2 y hy ha).trans_le (lastSeenAt_le_lastUsed (x.updated a createdAt lastSeenAt))
  own y hy he ha := by
    obtain rfl := h.rows.eq_of_endpoint hy hx he
    exact updated_own ha

/-- The last used of the account's: none of them comes before it. -/
theorem Written.not_past (h : Written s d) : ¬PastCeiling (put d s.rows) d.userId d := by
  rintro ⟨-, -, hle⟩
  have hnone : ((put d s.rows).filter fun y => decide (y.userId = d.userId) && decide (d.place < y.place)) = [] := by
    refine List.filter_eq_nil_iff.mpr fun y hy hlt => ?_
    rw [Bool.and_eq_true, decide_eq_true_eq, decide_eq_true_eq] at hlt
    rcases mem_put.mp hy with rfl | ⟨hy, hne⟩
    · exact lt_irrefl _ hlt.2
    · have hused := h.recent y hy hlt.1 hne
      exact lt_asymm hlt.2 (Prod.Lex.toLex_lt_toLex.mpr (.inl hused))
  rw [hnone] at hle
  exact absurd hle (by simp [MAX_DEVICES_PER_ACCOUNT])

/-- STEP: the `DELETE` picks, in its snapshot. -/
theorem Table.evicting (h : Table s) (hd : Written s d) :
    Evicting s d (put d s.rows) [] (evicted (put d s.rows) d.userId) := by
  have hrows : Rows s.ids (put d s.rows) := h.rows.put hd.given
  have hpast : ∀ x ∈ evicted (put d s.rows) d.userId, PastCeiling (put d s.rows) d.userId x :=
    fun x hx => (mem_evicted hrows h.ids).mp hx
  have hother : ∀ x ∈ evicted (put d s.rows) d.userId, x ∈ s.rows ∧ x.endpoint ≠ d.endpoint := by
    intro x hx
    rcases mem_put.mp (hpast x hx).1 with rfl | hx
    · exact absurd (hpast x hx) hd.not_past
    · exact hx
  refine ⟨fun x hx => h.rows.given x (hother x hx).1, fun x hx => (hother x hx).2, hpast, ?_,
    fun y hy => absurd hy List.not_mem_nil, ?_, fun hown => ⟨rfl, ?_⟩⟩
  · intro x hx y hy hid
    obtain rfl := h.rows.eq_of_id h.ids hy (hother x hx).1 hid
    exact (hpast y hx).2.1
  · -- the row written is one of those left
    refine Nat.lt_of_succ_le (le_trans ?_ (length_not_evicted (put d s.rows) d.userId))
    have hnodup : (d :: s.rows.filter fun x => decide (x.userId = d.userId ∧ x.endpoint ≠ d.endpoint ∧
        x.id ∉ ([] ++ evicted (put d s.rows) d.userId).map Device.id)).Nodup := by
      refine List.nodup_cons.mpr ⟨fun hmem => ?_, h.rows.nodup.filter _⟩
      exact (of_decide_eq_true (List.mem_filter.mp hmem).2).2.1 rfl
    refine (List.subperm_of_subset hnodup fun x hx => ?_).length_le
    rw [List.mem_filter, Bool.and_eq_true, decide_eq_true_eq, decide_eq_true_eq]
    rcases List.mem_cons.mp hx with rfl | hx
    · exact ⟨mem_put.mpr (.inl rfl), fun hmem => hd.not_past (hpast x hmem), rfl⟩
    · obtain ⟨hx, hkeep⟩ := List.mem_filter.mp hx
      obtain ⟨ha, hne, hid⟩ := of_decide_eq_true hkeep
      exact ⟨mem_put.mpr (.inr ⟨hx, hne⟩), fun hmem => hid (List.mem_map_of_mem hmem), ha⟩
  · refine evicted_eq_nil (le_trans (le_of_eq ?_) (h.ceiling d.userId))
    rw [put_own h.rows hd.own hown, List.filter_map, List.length_map]
    refine congrArg List.length (List.filter_congr fun x _ => ?_)
    rw [Function.comp_apply]
    split <;> rfl

/-- STEP: it comes to a row picked, still the caller's. -/
theorem Evicting.row {seen reached before after : List (Device A)} (h : Evicting s d seen reached (before ++ x :: after))
    (htable : Table s) (hd : Written s d) (hy : y ∈ put d s.rows) (hid : y.id = x.id) :
    Evicting s d seen (y :: reached) (before ++ after) := by
  have hx : x ∈ before ++ x :: after := List.mem_append_right _ List.mem_cons_self
  have hsub : ∀ z ∈ before ++ after, z ∈ before ++ x :: after := fun z hz =>
    (List.Sublist.append_left (List.sublist_cons_self x after) before).subset hz
  have hsame : ∀ e, (y.id, e) ∈ s.ids → x.endpoint = e := by
    intro e he
    rw [hid] at he
    exact endpoint_of_id htable.ids (h.given x hx) he
  obtain ⟨hrow, hne⟩ : y ∈ s.rows ∧ y.endpoint ≠ d.endpoint := by
    rcases mem_put.mp hy with rfl | hy
    · exact absurd (hsame _ hd.given) (h.elsewhere x hx)
    · exact hy
  refine ⟨fun z hz => h.given z (hsub z hz), fun z hz => h.elsewhere z (hsub z hz), fun z hz => h.past z (hsub z hz),
    fun z hz => h.mine z (hsub z hz), ?_, ?_, fun hown => ?_⟩
  · intro z hz
    rcases List.mem_cons.mp hz with rfl | hz
    · exact ⟨hrow, hne, h.mine x hx z hrow hid, x, hsame _ (htable.rows.given z hrow), h.past x hx⟩
    · exact h.came z hz
  · refine lt_of_le_of_lt (List.Sublist.length_le (List.monotone_filter_right _ fun z hz => ?_)) h.room
    obtain ⟨ha, he, hz⟩ := of_decide_eq_true hz
    refine decide_eq_true ⟨ha, he, fun hmem => hz ?_⟩
    simp only [List.cons_append, List.map_cons, List.map_append, List.mem_cons, List.mem_append] at hmem ⊢
    rcases hmem with hmem | hmem | heq | hmem
    · exact .inr (.inl hmem)
    · exact .inr (.inr (.inl hmem))
    · exact .inl (heq.trans hid.symm)
    · exact .inr (.inr (.inr hmem))
  · exact absurd (h.own hown).2 (by simp)

/-- STEP: or the row is gone. -/
theorem Evicting.gone {seen reached before after : List (Device A)} (h : Evicting s d seen reached (before ++ x :: after))
    (hgone : ∀ y ∈ put d s.rows, y.id ≠ x.id) : Evicting s d seen reached (before ++ after) := by
  have hsub : ∀ z ∈ before ++ after, z ∈ before ++ x :: after := fun z hz =>
    (List.Sublist.append_left (List.sublist_cons_self x after) before).subset hz
  refine ⟨fun z hz => h.given z (hsub z hz), fun z hz => h.elsewhere z (hsub z hz), fun z hz => h.past z (hsub z hz),
    fun z hz => h.mine z (hsub z hz), h.came, ?_, fun hown => ?_⟩
  · refine lt_of_le_of_lt (le_of_eq (congrArg List.length (List.filter_congr fun z hz => ?_))) h.room
    refine decide_eq_decide.mpr (and_congr_right fun _ => and_congr_right fun he => not_congr ?_)
    have hne : z.id ≠ x.id := hgone z (mem_put.mpr (.inr ⟨hz, he⟩))
    simp only [List.map_append, List.map_cons, List.mem_append, List.mem_cons]
    constructor
    · rintro (hmem | hmem | hmem)
      · exact .inl hmem
      · exact .inr (.inl hmem)
      · exact .inr (.inr (.inr hmem))
    · rintro (hmem | hmem | heq | hmem)
      · exact .inl hmem
      · exact .inr (.inl hmem)
      · exact absurd heq hne
      · exact .inr (.inr hmem)
  · exact absurd (h.own hown).2 (by simp)

/-- Rows gone, the table is kept. -/
theorem Table.without (h : Table s) (gone : List (Device A)) (log : List (Commit A)) :
    Table { s with rows := Devices.without gone s.rows, log := log } where
  ids := h.ids
  rows := h.rows.of_subset List.filter_sublist
  ceiling a := ((List.filter_sublist.filter _).length_le).trans (h.ceiling a)
  used x hx := h.used x (mem_without.mp hx).1

/-- STEP: a subscription commits. -/
theorem Table.commit (h : Table s) {seen reached : List (Device A)} (hd : Written s d)
    (hevicting : Evicting s d seen reached []) (log : List (Commit A)) :
    Table { s with rows := Devices.without reached (put d s.rows), log := log } := by
  have hrows : Rows s.ids (Devices.without reached (put d s.rows)) := (h.rows.put hd.given).of_subset List.filter_sublist
  refine ⟨h.ids, hrows, fun a => ?_, fun x hx => ?_⟩
  · by_cases ha : d.userId = a
    · subst ha
      have hsub : ((Devices.without reached (put d s.rows)).filter fun x => decide (x.userId = d.userId)) ⊆
          d :: s.rows.filter fun x => decide (x.userId = d.userId ∧ x.endpoint ≠ d.endpoint ∧
            x.id ∉ (reached ++ []).map Device.id) := by
        intro x hx
        obtain ⟨hx, ha⟩ := List.mem_filter.mp hx
        obtain ⟨hx, hkept⟩ := mem_without.mp hx
        rcases mem_put.mp hx with rfl | ⟨hx, hne⟩
        · exact List.mem_cons_self
        · refine List.mem_cons_of_mem _ (List.mem_filter.mpr ⟨hx, decide_eq_true ⟨of_decide_eq_true ha, hne, ?_⟩⟩)
          rw [List.append_nil]
          intro hmem
          obtain ⟨y, hy, heq⟩ := List.mem_map.mp hmem
          exact hkept y hy heq
      exact (List.subperm_of_subset (hrows.nodup.filter _) hsub).length_le.trans (Nat.succ_le_of_lt hevicting.room)
    · refine le_trans (List.subperm_of_subset (hrows.nodup.filter _) fun x hx => ?_).length_le (h.ceiling a)
      obtain ⟨hx, hxa⟩ := List.mem_filter.mp hx
      rcases mem_put.mp (mem_without.mp hx).1 with rfl | ⟨hx, -⟩
      · exact absurd (of_decide_eq_true hxa) ha
      · exact List.mem_filter.mpr ⟨hx, hxa⟩
  · rcases mem_put.mp (mem_without.mp hx).1 with rfl | ⟨hx, -⟩
    · exact hd.used
    · exact h.used x hx

/-- STEP: and leaves what others registered. -/
theorem Kept.commit (h : Kept s) {seen reached : List (Device A)} (htable : Table s) (hd : Written s d)
    (hevicting : Evicting s d seen reached []) :
    Kept { s with
      rows := Devices.without reached (put d s.rows)
      log := ⟨.subscribed d.userId d.endpoint, seen, s.rows, Devices.without reached (put d s.rows)⟩ :: s.log } := by
  have htable' := htable.commit hd hevicting
    (⟨.subscribed d.userId d.endpoint, seen, s.rows, Devices.without reached (put d s.rows)⟩ :: s.log)
  have hmine : ∀ x ∈ s.rows, ∀ y ∈ reached, y.id = x.id → y = x := fun x hx y hy hid =>
    htable.rows.eq_of_id htable.ids (hevicting.came y hy).1 hx hid
  have hwritten : d ∈ Devices.without reached (put d s.rows) := by
    refine mem_without.mpr ⟨mem_put.mpr (.inl rfl), fun y hy hid => ?_⟩
    have hgiven := htable.rows.given y (hevicting.came y hy).1
    rw [hid] at hgiven
    exact (hevicting.came y hy).2.1 (endpoint_of_id htable.ids hgiven hd.given)
  refine ⟨htable'.ceiling, fun x hx y hy => htable'.rows.eq_of_endpoint hx hy, ?_, ?_, ?_⟩
  · intro later c earlier a endpoint hlog hc hlater
    cases later with
    | nil =>
      obtain ⟨rfl, -⟩ := List.cons.inj hlog
      obtain ⟨rfl, rfl⟩ := Change.subscribed.inj hc
      exact ⟨d, hwritten, rfl, rfl⟩
    | cons c' later =>
      obtain ⟨rfl, hrest⟩ := List.cons.inj hlog
      obtain ⟨x, hx, he, ha⟩ := h.registered later c earlier a endpoint hrest hc fun c' hc' =>
        hlater c' (List.mem_cons_of_mem _ hc')
      have hends := hlater _ List.mem_cons_self
      by_cases hsame : d.endpoint = endpoint
      · refine ⟨d, hwritten, hsame, ?_⟩
        by_contra hne
        exact hends (.takenOver d.userId (by rw [hsame]) hne)
      · refine ⟨x, mem_without.mpr ⟨mem_put.mpr (.inr ⟨hx, fun h => hsame (h.symm.trans he)⟩), fun y hy hid => ?_⟩, he, ha⟩
        obtain rfl := hmine x hx y hy hid
        obtain ⟨-, -, hya, z, hz, hpast⟩ := hevicting.came y hy
        obtain rfl : d.userId = a := hya.symm.trans ha
        exact hends (.replaced d.endpoint rfl hsame z (hz.trans he) hpast)
  · intro c hc a endpoint hchange x hx hne he
    rcases List.mem_cons.mp hc with rfl | hc
    · obtain ⟨rfl, rfl⟩ := Change.subscribed.inj hchange
      refine mem_without.mpr ⟨mem_put.mpr (.inr ⟨hx, he⟩), fun y hy hid => hne ?_⟩
      rw [← hmine x hx y hy hid]
      exact (hevicting.came y hy).2.2.1
    · exact h.others c hc a endpoint hchange x hx hne he
  · intro c hc a endpoint hchange hown
    rcases List.mem_cons.mp hc with rfl | hc
    · obtain ⟨rfl, rfl⟩ := Change.subscribed.inj hchange
      refine ⟨d.lastSeenAt, ?_⟩
      dsimp only at hown ⊢
      rw [(hevicting.own hown).1, put_own htable.rows hd.own hown, Devices.without]
      simp
    · exact h.own c hc a endpoint hchange hown

/-- STEP: an account unsubscribes its own devices. -/
theorem Kept.forgotten (h : Kept s) {seen reached : List (Device A)} (htable : Table s) (hreached : ∀ y ∈ reached, y ∈ s.rows) :
    Kept { s with
      rows := Devices.without (reached.filter fun x => x.userId = a) s.rows
      log := ⟨.unsubscribed a, seen, s.rows, Devices.without (reached.filter fun x => x.userId = a) s.rows⟩ :: s.log } := by
  have htable' := htable.without (reached.filter fun x => x.userId = a)
    (⟨.unsubscribed a, seen, s.rows, Devices.without (reached.filter fun x => x.userId = a) s.rows⟩ :: s.log)
  refine ⟨htable'.ceiling, fun x hx y hy => htable'.rows.eq_of_endpoint hx hy, ?_, ?_, ?_⟩
  · intro later c earlier b endpoint hlog hc hlater
    cases later with
    | nil =>
      obtain ⟨rfl, -⟩ := List.cons.inj hlog
      exact absurd hc (by simp)
    | cons c' later =>
      obtain ⟨rfl, hrest⟩ := List.cons.inj hlog
      obtain ⟨x, hx, he, hb⟩ := h.registered later c earlier b endpoint hrest hc fun c' hc' =>
        hlater c' (List.mem_cons_of_mem _ hc')
      refine ⟨x, mem_without.mpr ⟨hx, fun y hy hid => ?_⟩, he, hb⟩
      obtain ⟨hy, ha⟩ := List.mem_filter.mp hy
      obtain rfl := htable.rows.eq_of_id htable.ids (hreached y hy) hx hid
      obtain rfl : b = a := hb.symm.trans (of_decide_eq_true ha)
      exact hlater _ List.mem_cons_self (.unsubscribed rfl)
  · intro c hc b endpoint hchange
    rcases List.mem_cons.mp hc with rfl | hc
    · exact absurd hchange (by simp)
    · exact h.others c hc b endpoint hchange
  · intro c hc b endpoint hchange
    rcases List.mem_cons.mp hc with rfl | hc
    · exact absurd hchange (by simp)
    · exact h.own c hc b endpoint hchange

/-! ### Any interleaving -/

open RowLocks

variable {web : Web} {configured : Bool}

/-- The table, and what is claimed of it. -/
def Good (s : Db A) : Prop := Table s ∧ Kept s

/-- The same rows, and more ids. -/
theorem Kept.same (h : Kept s) (hrows : s'.rows = s.rows) (hlog : s'.log = s.log) : Kept s' where
  ceiling := hrows ▸ h.ceiling
  unique := hrows ▸ h.unique
  registered := by
    rw [hrows, hlog]
    exact h.registered
  others := hlog ▸ h.others
  own := hlog ▸ h.own

theorem Table.tick (h : Table s) {clock : ℤ} (hclock : s.clock ≤ clock) : Table { s with clock := clock } :=
  ⟨h.ids, h.rows, h.ceiling, fun x hx => (h.used x hx).trans hclock⟩

/-- STEP: what a request does keeps the table, and what it knows. -/
theorem Good.move (h : Good s) (hknows : Knows s l) (hmove : Move web configured s l s' l') : Good s' ∧ Knows s' l' := by
  obtain ⟨htable, hkept⟩ := h
  cases hmove with
  | fail => exact ⟨⟨htable, hkept⟩, trivial⟩
  | notConfigured => exact ⟨⟨htable, hkept⟩, trivial⟩
  | invalid => exact ⟨⟨htable, hkept⟩, trivial⟩
  | lock => exact ⟨⟨htable, hkept⟩, trivial⟩
  | stamp a endpoint createdAt lastSeenAt hclock hseen =>
    refine ⟨⟨htable.tick (hclock.le.trans hseen), hkept.same rfl rfl⟩, le_rfl, fun x hx _ => ?_⟩
    exact (htable.used x hx).trans_lt (hclock.trans_le hseen)
  | insert a endpoint createdAt lastSeenAt id hnew hid =>
    refine ⟨⟨⟨?_, ⟨htable.rows.endpoints, ?_⟩, htable.ceiling, htable.used⟩, hkept.same rfl rfl⟩, ?_⟩
    · rw [List.map_cons]
      exact List.nodup_cons.mpr ⟨hid, htable.ids⟩
    · exact fun x hx => List.mem_cons_of_mem _ (htable.rows.given x hx)
    · exact written_insert hknows hnew
  | update a createdAt lastSeenAt x hx => exact ⟨⟨htable, hkept⟩, htable.written_update hknows hx⟩
  | evict d => exact ⟨⟨htable, hkept⟩, hknows, htable.evicting hknows⟩
  | evictRow d seen reached before after x y hy hid =>
    exact ⟨⟨htable, hkept⟩, hknows.1, hknows.2.row htable hknows.1 hy hid⟩
  | evictGone d seen reached before after x hgone => exact ⟨⟨htable, hkept⟩, hknows.1, hknows.2.gone hgone⟩
  | commit d seen reached => exact ⟨⟨htable.commit hknows.1 hknows.2 _, hkept.commit htable hknows.1 hknows.2⟩, trivial⟩
  | forget a => exact ⟨⟨htable, hkept⟩, fun y hy => absurd hy List.not_mem_nil⟩
  | forgetRow a seen reached before after x y hy hid =>
    refine ⟨⟨htable, hkept⟩, fun z hz => ?_⟩
    rcases List.mem_cons.mp hz with rfl | hz
    · exact hy
    · exact hknows z hz
  | forgetGone => exact ⟨⟨htable, hkept⟩, hknows⟩
  | forgotten a seen reached => exact ⟨⟨htable.without _ _, hkept.forgotten htable hknows⟩, trivial⟩

omit [DecidableEq A] in
/-- A step that writes no row leaves the others what they know. -/
theorem Leaves.same (hrows : s'.rows = s.rows) (hnodup : s.rows.Nodup) (hclock : s.clock ≤ s'.clock)
    (hids : ∀ p ∈ s.ids, p ∈ s'.ids) : Leaves m s s' := by
  refine ⟨hclock, hids, hrows ▸ hnodup, ?_, ?_, ?_⟩
  · exact fun _ _ x _ => by rw [hrows]
  · exact fun _ _ x hx _ => hrows ▸ hx
  · exact fun _ _ y hy _ => hrows ▸ hy

/-- STEP: a commit leaves the others what they know: their account's rows, those they hold, those they picked. -/
theorem Leaves.commit {seen reached : List (Device A)} (htable : Table s) (hd : Written s d)
    (hevicting : Evicting s d seen reached []) (hapart : (system web configured).Apart (.evicting d seen reached []) m)
    (hclear : ∀ x ∈ m.left, x.id ≠ d.id) (log : List (Commit A)) :
    Leaves m s { s with rows := Devices.without reached (put d s.rows), log := log } where
  clock := le_rfl
  ids _ hp := hp
  nodup := (htable.commit hd hevicting log).rows.nodup
  device endpoint hheld x he := by
    have hne : x.endpoint ≠ d.endpoint := by
      intro heq
      rw [← he, heq] at hheld
      exact hapart.not_update (List.mem_cons_of_mem _ List.mem_cons_self) hheld
    refine ⟨fun hx => ?_, fun hx => mem_without.mpr ⟨mem_put.mpr (.inr ⟨hx, hne⟩), fun y hy hid => ?_⟩⟩
    · rcases mem_put.mp (mem_without.mp hx).1 with rfl | hx
      · exact absurd rfl hne
      · exact hx.1
    · obtain rfl := htable.rows.eq_of_id htable.ids (hevicting.came y hy).1 hx hid
      rw [← he] at hheld
      exact hapart.not_update (List.mem_cons_of_mem _ (List.mem_cons_of_mem _ (List.mem_map_of_mem hy))) hheld
  user a hheld x hx ha := by
    rcases mem_put.mp (mem_without.mp hx).1 with rfl | hx
    · rw [← ha] at hheld
      exact (hapart.not_update List.mem_cons_self hheld).elim
    · exact hx.1
  left x hx y hy hid := by
    rcases mem_put.mp (mem_without.mp hy).1 with rfl | hy
    · exact absurd hid.symm (hclear x hx)
    · exact hy.1

theorem Leaves.forgotten {seen reached : List (Device A)} (htable : Table s) (hreached : ∀ y ∈ reached, y ∈ s.rows)
    (hapart : (system web configured).Apart (.forgetting a seen reached []) m) (log : List (Commit A)) :
    Leaves m s { s with rows := Devices.without (reached.filter fun x => x.userId = a) s.rows, log := log } where
  clock := le_rfl
  ids _ hp := hp
  nodup := htable.rows.nodup.filter _
  device endpoint hheld x he := by
    refine ⟨fun hx => (mem_without.mp hx).1, fun hx => mem_without.mpr ⟨hx, fun y hy hid => ?_⟩⟩
    have hy := (List.mem_filter.mp hy).1
    obtain rfl := htable.rows.eq_of_id htable.ids (hreached y hy) hx hid
    rw [← he] at hheld
    exact hapart.not_update (List.mem_map_of_mem hy) hheld
  user a _ x hx _ := (mem_without.mp hx).1
  left _ _ y hy _ := (mem_without.mp hy).1

theorem leaves_of_move (h : Good s) (hknows : Knows s l) (hapart : (system web configured).Apart l m)
    (hclear : Clear l l' m) (hmove : Move web configured s l s' l') : Leaves m s s' := by
  obtain ⟨htable, -⟩ := h
  have hsame : Leaves m s s := .same rfl htable.rows.nodup le_rfl fun _ hp => hp
  cases hmove with
  | stamp a endpoint createdAt lastSeenAt hclock hseen =>
    exact .same rfl htable.rows.nodup (hclock.le.trans hseen) fun _ hp => hp
  | insert => exact .same rfl htable.rows.nodup le_rfl fun _ hp => List.mem_cons_of_mem _ hp
  | commit d seen reached =>
    refine .commit htable hknows.1 hknows.2 hapart ?_ _
    cases m with
    | evicting d' seen' reached' left => exact hclear
    | _ => exact fun x hx => absurd hx List.not_mem_nil
  | forgotten a seen reached => exact .forgotten htable hknows hapart _
  | _ => exact hsame

theorem good_preserved : PreservedIf (system web configured : System (Db A) (Pc A) (Key A)) Clear Good Knows where
  env s s' h henv := by
    obtain ⟨clock, hclock, rfl⟩ := henv
    exact ⟨h.1.tick hclock, h.2.same rfl rfl⟩
  env_client s s' l h hknows henv := by
    obtain ⟨clock, hclock, rfl⟩ := henv
    exact hknows.of_leaves (.same rfl h.1.rows.nodup hclock fun _ hp => hp)
  move _ _ _ _ h hknows hmove := h.move hknows hmove
  move_other _ _ _ _ _ hapart hclear h hknows hother hmove := hother.of_leaves (leaves_of_move h hknows hapart hclear hmove)

variable {τ : Type} [DecidableEq τ]

/-- Before any request. -/
def waiting (s : Db A) (requests : τ → Request A) : World (Db A) (Pc A) τ := ⟨s, fun i => .idle (requests i)⟩

theorem kept_of_log_nil (h : Table s) (hlog : s.log = []) : Kept s where
  ceiling := h.ceiling
  unique _ hx _ hy := h.rows.eq_of_endpoint hx hy
  registered later c earlier a endpoint hsplit := by
    rw [hlog] at hsplit
    exact absurd hsplit (by simp)
  others c hc := by
    rw [hlog] at hc
    exact absurd hc List.not_mem_nil
  own c hc := by
    rw [hlog] at hc
    exact absurd hc List.not_mem_nil

/-- CORRECT: where no subscription commits on a row that an eviction under way has picked and not come to, whatever the
    interleaving, devices are kept. -/
theorem kept_of_clear (h : Table s) (hlog : s.log = []) (requests : τ → Request A) {w : World (Db A) (Pc A) τ}
    (hrun : StepsIf (system web configured) Clear (waiting s requests) w) : Kept w.shared := by
  have hstart : Holds (system web configured) Good Knows (waiting s requests) :=
    .of_nil (fun _ => rfl) ⟨h, kept_of_log_nil h hlog⟩ fun _ => trivial
  exact (good_preserved.steps hstart hrun).shared.2

/-! ### One subscription, and one taken over -/

/-- The crate, on one push service. -/
def webOne : Web where
  Url := Text
  parse raw := if "https://fcm.googleapis.com/".toList.isPrefixOf raw then some raw else none
  asStr url := url
  scheme _ := "https".toList
  username _ := []
  password _ := none
  port _ := none
  domain _ := some "fcm.googleapis.com".toList
  hostStr _ := some "fcm.googleapis.com".toList

def endpointAt (n : ℕ) : Text := "https://fcm.googleapis.com/fcm/send/a".toList ++ List.replicate n 'b'

theorem endpointAt_injective : Function.Injective endpointAt := by
  intro n m h
  have hlength := congrArg List.length (List.append_cancel_left h)
  rwa [List.length_replicate, List.length_replicate] at hlength

theorem validateEndpoint_zero : validateEndpoint webOne (endpointAt 0) = .ok (endpointAt 0) := by
  rw [validateEndpoint, if_neg (by decide +kernel)]
  rfl

theorem validateEndpoint_fifty : validateEndpoint webOne (endpointAt 50) = .ok (endpointAt 50) := by
  rw [validateEndpoint, if_neg (by decide +kernel)]
  rfl

def noDevice : Db Unit := ⟨0, [], [], []⟩

theorem table_noDevice : Table noDevice where
  ids := List.nodup_nil
  rows := ⟨List.nodup_nil, fun _ hx => absurd hx List.not_mem_nil⟩
  ceiling _ := Nat.zero_le _
  used _ hx := absurd hx List.not_mem_nil

/-- The first device of an account. -/
theorem kept_of_clear_first : ∃ w : World (Db Unit) (Pc Unit) Unit,
    StepsIf (system webOne true) Clear (waiting noDevice fun _ => .subscribe () (endpointAt 0)) w ∧
      w.client () = .created ∧ Kept w.shared := by
  have hmove : ∀ {s s' : Db Unit} {l l' : Pc Unit}, Move webOne true s l s' l' →
      StepIf (system webOne true) Clear (⟨s, fun _ => l⟩ : World (Db Unit) (Pc Unit) Unit) ⟨s', fun _ => l'⟩ := by
    intro s s' l l' h
    have hstep : StepIf (system webOne true) Clear (⟨s, fun _ => l⟩ : World (Db Unit) (Pc Unit) Unit) _ :=
      .move _ () s' l' h (fun j hj => absurd rfl hj) fun j hj => absurd rfl hj
    rwa [show Function.update (fun _ : Unit => l) () l' = fun _ => l' from funext fun _ => Function.update_self _ _ _]
      at hstep
  have hrun := ((((Relation.ReflTransGen.single
    (hmove (.lock noDevice () (endpointAt 0) _ rfl validateEndpoint_zero))).tail
    (hmove (.stamp _ () _ 1 1 (by decide) (by decide)))).tail
    (hmove (.insert _ () _ 1 1 0 (fun _ hx => absurd hx List.not_mem_nil) List.not_mem_nil))).tail
    (hmove (.evict _ _))).tail (hmove (.commit _ _ _ _))
  exact ⟨_, hrun, rfl, kept_of_clear table_noDevice rfl _ hrun⟩

/-- As many devices as an account keeps, the oldest first. -/
def fifty : Db Bool where
  clock := 49
  ids := (List.range 50).map fun n => (n, endpointAt n)
  rows := (List.range 50).map fun n => .inserted n false (endpointAt n) n n
  log := []

/-- The oldest of them, taken over by the other account. -/
def takenOver : Device Bool := .inserted 0 true (endpointAt 0) 50 50

/-- The one past the ceiling. -/
def fiftyFirst : Device Bool := .inserted 50 false (endpointAt 50) 51 51

theorem table_fifty : Table fifty where
  ids := by decide
  rows := by
    refine ⟨?_, fun x hx => ?_⟩
    · rw [fifty, List.map_map]
      exact List.nodup_range.map endpointAt_injective
    · obtain ⟨n, hn, rfl⟩ := List.mem_map.mp hx
      exact List.mem_map_of_mem (f := fun n => (n, endpointAt n)) hn
  ceiling a := (List.length_filter_le _ _).trans (by decide)
  used x hx := by
    obtain ⟨n, hn, rfl⟩ := List.mem_map.mp hx
    have hlt := List.mem_range.mp hn
    change (n : ℤ) ≤ 49
    omega

theorem evicted_fiftyFirst : evicted (put fiftyFirst fifty.rows) false = [.inserted 0 false (endpointAt 0) 0 0] := by
  decide +kernel

theorem evicted_takenOver : evicted (put takenOver fifty.rows) true = [] := by
  decide +kernel

theorem apart_of_keys {l m : Pc Bool} (h : ∀ p ∈ l.held, ∀ q ∈ m.held, p.1 ≠ q.1) :
    (system webOne true).Apart l m := fun k a b hl hm => absurd rfl (h (k, a) hl (k, b) hm)

/-- Both rows written, neither committed. -/
def written (clock : ℤ) : Db Bool := ⟨clock, (50, endpointAt 50) :: fifty.ids, fifty.rows, []⟩

/-- Deleted from the account that has just subscribed it. -/
theorem taken_over_deleted : ¬∀ (s : Db Bool) (requests : Bool → Request Bool) (w : World (Db Bool) (Pc Bool) Bool),
    Table s → s.log = [] → Steps (system webOne true) (waiting s requests) w → Kept w.shared := by
  intro h
  have hrequests : (waiting fifty fun i => bif i then .subscribe true (endpointAt 0) else .subscribe false (endpointAt 50)) =
      ⟨fifty, two (.idle (.subscribe false (endpointAt 50))) (.idle (.subscribe true (endpointAt 0)))⟩ := by
    rw [waiting, World.mk.injEq]
    exact ⟨rfl, funext fun i => by cases i <;> rfl⟩
  have hupdate : Move webOne true { fifty with clock := 50 } (.stamped true (endpointAt 0) 50 50)
      { fifty with clock := 50 } (.registered takenOver) :=
    .update _ true 50 50 (.inserted 0 false (endpointAt 0) 0 0) (List.mem_map.mpr ⟨0, by decide, rfl⟩)
  have hinsert : Move webOne true { fifty with clock := 51 } (.stamped false (endpointAt 50) 51 51) (written 51)
      (.registered fiftyFirst) :=
    .insert _ false (endpointAt 50) 51 51 50 (by decide +kernel) (by decide +kernel)
  have hevict : Move webOne true (written 51) (.registered fiftyFirst) (written 51)
      (.evicting fiftyFirst (put fiftyFirst fifty.rows) [] [.inserted 0 false (endpointAt 0) 0 0]) := by
    rw [← evicted_fiftyFirst]
    exact .evict (written 51) fiftyFirst
  have hevictOther : Move webOne true (written 51) (.registered takenOver) (written 51)
      (.evicting takenOver (put takenOver fifty.rows) [] []) := by
    rw [← evicted_takenOver]
    exact .evict (written 51) takenOver
  have htaken : takenOver ∈ without [] (put takenOver fifty.rows) :=
    mem_without.mpr ⟨mem_put.mpr (.inl rfl), fun _ hy => absurd hy List.not_mem_nil⟩
  have hne : takenOver.endpoint ≠ fiftyFirst.endpoint := by decide +kernel
  have hrun := (((((((((Relation.ReflTransGen.single
    (Step.second (Move.lock fifty true (endpointAt 0) _ rfl validateEndpoint_zero) (System.apart_of_nil rfl _))).tail
    (Step.second (Move.stamp fifty true (endpointAt 0) 50 50 (by decide) (by decide)) (System.apart_of_nil rfl _))).tail
    (Step.second hupdate (System.apart_of_nil rfl _))).tail
    (Step.first (Move.lock _ false (endpointAt 50) _ rfl validateEndpoint_fifty) (apart_of_keys (by decide +kernel)))).tail
    (Step.first (Move.stamp { fifty with clock := 50 } false (endpointAt 50) 51 51 (by decide) (by decide))
      (apart_of_keys (by decide +kernel)))).tail
    (Step.first hinsert (apart_of_keys (by decide +kernel)))).tail
    (Step.first hevict (apart_of_keys (by decide +kernel)))).tail
    (Step.second hevictOther (apart_of_keys (by decide +kernel)))).tail
    (Step.second (Move.commit (written 51) takenOver _ []) (System.apart_of_nil_left rfl _))).tail
    (Step.first (Move.evictRow _ fiftyFirst _ [] [] [] _ takenOver (mem_put.mpr (.inr ⟨htaken, hne⟩)) rfl)
      (System.apart_of_nil rfl _))
  have hkept := h fifty _ _ table_fifty rfl (hrequests ▸ hrun.tail
    (Step.first (Move.commit _ fiftyFirst _ [takenOver]) (System.apart_of_nil_left rfl _)))
  have hleft := hkept.others _ List.mem_cons_self false (endpointAt 50) rfl takenOver htaken (by decide) hne
  exact (mem_without.mp hleft).2 takenOver List.mem_cons_self rfl

end Home.Devices
