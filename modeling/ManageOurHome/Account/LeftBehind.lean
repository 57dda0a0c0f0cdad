import ManageOurHome.Account.Deactivation
import ManageOurHome.Account.PersonalRows

/-! @src apps/api/src/jobs/account_purge.rs, apps/api/src/groups/mod.rs, apps/api/src/notifications/preferences.rs, apps/api/src/auth/session.rs |
    layer:proof | family:account

    A purged account leaves no personal row behind, over every interleaving of purges and requests, as long as no
    row is inserted for an account already deleted. The foreign key orders every insert against the purge: one that
    comes first, the purge waits for and deletes; one that comes after waits for the purge, and is let through, for
    the account's row is still there.

        session checked ─ purge: FOR UPDATE, DELETE … commit ─ INSERT: a row for a deleted account -/

namespace Home.Account.PersonalRows

open RowLocks

variable {R T : Type} {chrono : Chrono} {s s' : Db R T} {t t' : Tx R T} {k : Row R}

/-- The account is not deleted. -/
def Live (s : Db R T) : Prop := s.account.deletedAt = none

theorem mem_purgedTables (table : Table) : table ∈ purgedTables := by cases table <;> decide

/-! ### What a transaction is known by -/

/-- A transaction that has inserted holds the account, in use; a purge holds it too, and has deleted all it saw. -/
structure Sound (s : Db R T) (t : Tx R T) : Prop where
  inserted : t.inserted ≠ [] → Live s ∧ ∃ mode, (.account, mode) ∈ t.held
  purging : ∀ now, t.at_ = .purging now → t.inserted = []
  deleting : ∀ row left, t.at_ = .deleting row left → t.inserted = [] ∧ (.account, .update) ∈ t.held ∧
    row.deletedAt.isSome ∧ ∀ k ∈ s.rows, k.1 ∈ left ∨ k ∈ t.deleted

/-- What a deleted account has left. -/
def Clear (s : Db R T) : Prop := s.account.deletedAt.isSome → s.rows = []

theorem sound_idle (s : Db R T) : Sound s .idle where
  inserted h := absurd rfl h
  purging _ h := absurd h (by simp [Tx.idle])
  deleting _ _ h := absurd h (by simp [Tx.idle])

/-- A request goes on without an insert. -/
theorem Sound.request (h : Sound s t) (hinserted : t'.inserted ≠ [] → t.inserted ≠ [])
    (hheld : ∀ mode, (.account, mode) ∈ t.held → (.account, mode) ∈ t'.held)
    (hpurging : ∀ now, t'.at_ ≠ .purging now) (hdeleting : ∀ row left, t'.at_ ≠ .deleting row left) : Sound s t' where
  inserted hne := by
    obtain ⟨hlive, mode, hmode⟩ := h.inserted (hinserted hne)
    exact ⟨hlive, mode, hheld mode hmode⟩
  purging now hat := absurd hat (hpurging now)
  deleting row left hat := absurd hat (hdeleting row left)

theorem sound_insert (k : Row R) {next : Pc R T} (hlive : Live s) (hpurging : ∀ now, next ≠ .purging now)
    (hdeleting : ∀ row left, next ≠ .deleting row left) : Sound s (t.insert k next) where
  inserted _ := ⟨hlive, .keyShare, List.mem_cons_self⟩
  purging now hat := absurd hat (hpurging now)
  deleting row left hat := absurd hat (hdeleting row left)

/-- Fewer rows, the account the same. -/
theorem Sound.fewer (h : Sound s t) (haccount : s'.account = s.account) (hrows : ∀ k ∈ s'.rows, k ∈ s.rows) :
    Sound s' t where
  inserted hne := by
    rw [Live, haccount]
    exact h.inserted hne
  purging := h.purging
  deleting row left hat := by
    obtain ⟨hnone, hheld, hdeleted, hseen⟩ := h.deleting row left hat
    exact ⟨hnone, hheld, hdeleted, fun k hk => hseen k (hrows k hk)⟩

variable [DecidableEq R]

theorem Sound.insertUnless (h : Sound s t) {next : Pc R T} (hlive : k ∉ t.visible s → Live s)
    (hpurging : ∀ now, next ≠ .purging now) (hdeleting : ∀ row left, next ≠ .deleting row left) :
    Sound s (t.insertUnless s k next) := by
  rw [Tx.insertUnless]
  split
  · exact h.request id (fun _ => id) hpurging hdeleting
  · rename_i hnew
    exact sound_insert k (hlive hnew) hpurging hdeleting

theorem mem_visible : k ∈ t.visible s ↔ (k ∈ s.rows ∧ k ∉ t.deleted) ∨ k ∈ t.inserted := by
  rw [Tx.visible, List.mem_append, List.mem_filter, decide_eq_true_eq]

variable [DecidableEq T]

theorem preserved (chrono : Chrono) : Preserved (system (R := R) (T := T) chrono Live) Clear Sound where
  env s s' hclear henv := by
    cases henv with
    | tick clock h => exact hclear
    | invited i => exact hclear
    | removed k => exact fun hdeleted => List.filter_eq_nil_iff.mpr fun x hx => absurd (hclear hdeleted ▸ hx) List.not_mem_nil
  env_client s s' t _ hsound henv := by
    cases henv with
    | tick clock h => exact hsound.fewer rfl fun _ => id
    | invited i => exact hsound.fewer rfl fun _ => id
    | removed k => exact hsound.fewer rfl fun _ hx => List.mem_of_mem_filter hx
  move s t s' t' hclear hsound hmove := by
    cases hmove with
    | check r h => exact ⟨hclear, (sound_idle s).request id (fun _ => id) (by simp) (by simp)⟩
    | giveUp => exact ⟨hclear, sound_idle s⟩
    | lookup _ token i hat h => exact ⟨hclear, hsound.request id (fun _ => id) (by simp) (by simp)⟩
    | hold _ token group i hat h =>
      exact ⟨hclear, hsound.request id (fun _ => List.mem_cons_of_mem _) (by simp) (by simp)⟩
    | unexpired _ token group expiresAt hat h => exact ⟨hclear, hsound.request id (fun _ => id) (by simp) (by simp)⟩
    | consume _ token group hat => exact ⟨hclear, hsound.request id (fun _ => id) (by simp) (by simp)⟩
    | join _ group hat hlive => exact ⟨hclear, hsound.insertUnless hlive (by simp) (by simp)⟩
    | lockOwn _ endpoint hat => exact ⟨hclear, hsound.request id (fun _ => List.mem_cons_of_mem _) (by simp) (by simp)⟩
    | register _ endpoint hat hlive => exact ⟨hclear, hsound.insertUnless hlive (by simp) (by simp)⟩
    | trim _ beyond hat =>
      refine ⟨hclear, hsound.request (fun hne hnone => hne ?_) (fun _ => id) (by simp) (by simp)⟩
      dsimp only
      rw [hnone, List.filter_nil]
    | updateSettings _ channel hour hat =>
      exact ⟨hclear, hsound.request id (fun _ => List.mem_cons_of_mem _) (by simp) (by simp)⟩
    | openSession _ session hat hlive hnew => exact ⟨hclear, sound_insert _ hlive (by simp) (by simp)⟩
    | insert _ k rows hat hlive hnew => exact ⟨hclear, sound_insert k hlive (by simp) (by simp)⟩
    | inserted _ hat => exact ⟨hclear, hsound.request id (fun _ => id) (by simp) (by simp)⟩
    | commit _ hat =>
      refine ⟨fun hdeleted => ?_, sound_idle _⟩
      have hnone : t.inserted = [] := by
        by_contra hne
        have hlive := (hsound.inserted hne).1
        exact absurd (hlive ▸ hdeleted) (by simp)
      refine List.eq_nil_iff_forall_not_mem.mpr fun k hk => ?_
      rcases mem_visible.mp hk with ⟨hk, -⟩ | hk
      · exact absurd (hclear hdeleted ▸ hk) List.not_mem_nil
      · exact absurd (hnone ▸ hk) List.not_mem_nil
    | begin =>
      exact ⟨hclear, fun h => absurd rfl h, fun _ _ => rfl, fun _ _ h => absurd h (by simp)⟩
    | judge _ now row hat h =>
      have hnone := hsound.purging now hat
      refine ⟨hclear, fun hne => absurd hnone hne, fun _ h => absurd h (by simp), fun row' left' hat' => ?_⟩
      obtain ⟨rfl, rfl⟩ := Pc.deleting.inj hat'
      exact ⟨hnone, List.mem_cons_self, by rw [purgeAccount_some h]; rfl, fun k _ => .inl (mem_purgedTables k.1)⟩
    | delete _ row table left hat =>
      obtain ⟨hnone, hheld, hdeleted, hseen⟩ := hsound.deleting row (table :: left) hat
      refine ⟨hclear, fun hne => absurd hnone hne, fun _ h => absurd h (by simp), fun row' left' hat' => ?_⟩
      obtain ⟨rfl, rfl⟩ := Pc.deleting.inj hat'
      refine ⟨hnone, hheld, hdeleted, fun k hk => ?_⟩
      rcases hseen k hk with hleft | hgone
      · rcases List.mem_cons.mp hleft with htable | hleft
        · exact .inr (List.mem_append_left _ (List.mem_filter.mpr ⟨hk, decide_eq_true htable⟩))
        · exact .inl hleft
      · exact .inr (List.mem_append_right _ hgone)
    | purged _ row hat =>
      obtain ⟨hnone, -, -, hseen⟩ := hsound.deleting row [] hat
      refine ⟨fun _ => List.eq_nil_iff_forall_not_mem.mpr fun k hk => ?_, sound_idle _⟩
      rcases mem_visible.mp hk with ⟨hk, hkept⟩ | hk
      · exact hkept ((hseen k hk).resolve_left List.not_mem_nil)
      · exact absurd (hnone ▸ hk) List.not_mem_nil
  move_other s t s' t' u hapart hclear hsound hother hmove := by
    cases hmove with
    | commit _ hat =>
      -- what it inserted, no purge under way can have missed: both would hold the account
      refine ⟨hother.inserted, hother.purging, fun row left hat' => ?_⟩
      obtain ⟨hnone, hheld, hdeleted, hseen⟩ := hother.deleting row left hat'
      refine ⟨hnone, hheld, hdeleted, fun k hk => ?_⟩
      rcases mem_visible.mp hk with ⟨hk, -⟩ | hk
      · exact hseen k hk
      · obtain ⟨-, mode, hmode⟩ := hsound.inserted (List.ne_nil_of_mem hk)
        exact absurd (hapart.not_update hmode hheld) id
    | purged _ row hat =>
      obtain ⟨-, hheld, -, -⟩ := hsound.deleting row [] hat
      refine ⟨fun hne => ?_, hother.purging, fun row' left' hat' => ?_⟩
      · obtain ⟨-, mode, hmode⟩ := hother.inserted hne
        exact absurd (hapart.symm.not_update hmode hheld) id
      · obtain ⟨-, hheld', -, -⟩ := hother.deleting row' left' hat'
        exact absurd (hapart.not_update hheld hheld') id
    | check | giveUp | lookup | hold | unexpired | consume | join | lockOwn | register | trim | updateSettings | openSession
    | insert | inserted | begin | judge | delete => exact hother

/-! ### Whole histories -/

/-- NOTHING LEFT BEHIND: in every interleaving of purges and requests whose inserts are all made for an account not
    deleted, a deleted account has no personal row, and no transaction under way holds one for it. -/
theorem nothing_left {τ : Type} [DecidableEq τ] {w w' : World (Db R T) (Tx R T) τ} (hidle : ∀ i, w.client i = .idle)
    (hclear : Clear w.shared) (hrun : Steps (system chrono Live) w w') (hdeleted : w'.shared.account.deletedAt.isSome) :
    w'.shared.rows = [] ∧ ∀ i, (w'.client i).inserted = [] := by
  have hstart : Holds (system chrono Live) Clear Sound w := by
    refine .of_nil (fun i => ?_) hclear fun i => hidle i ▸ sound_idle _
    rw [hidle i]
    rfl
  have hend := (preserved chrono).steps hstart hrun
  refine ⟨hend.shared hdeleted, fun i => ?_⟩
  by_contra hne
  have hlive := ((hend.client i).inserted hne).1
  exact absurd (hlive ▸ hdeleted) (by simp)

section

variable {live : Db R T → Prop} {other : Tx R T}

/-- What a purge has deleted, the tables taken one after the other. -/
def deletedFrom (s : Db R T) (left : List Table) (deleted : List (Row R)) : List (Row R) :=
  left.foldl (fun deleted table => s.rows.filter (fun k => k.1 = table) ++ deleted) deleted

/-- The deletes of a purge, beside a request that holds nothing. -/
theorem steps_delete (hother : other.held = []) (row : PurgeClock) (left : List Table) (t : Tx R T)
    (hat : t.at_ = .deleting row left) :
    Steps (system chrono live) ⟨s, two other t⟩
      ⟨s, two other { t with at_ := .deleting row [], deleted := deletedFrom s left t.deleted }⟩ := by
  induction left generalizing t with
  | nil =>
    rw [← hat]
    exact .refl
  | cons table left ih =>
    refine .head (Step.second (.delete s t row table left hat) (System.apart_of_nil hother _)) ?_
    exact ih { t with at_ := .deleting row left, deleted := s.rows.filter (fun k => k.1 = table) ++ t.deleted } rfl

end

/-! ### An invitation accepted across the purge -/

/-- An account whose deletion was requested 31 days ago, signed in and invited. -/
def leaving : Db ℕ ℕ where
  clock := march + 31 * day
  account := ⟨some march, none, none, none, false, none⟩
  settings := ⟨"email", 8⟩
  rows := [(.sessions, 0)]
  invitations := [⟨0, 0, march + 32 * day⟩]

/-- What its row becomes. -/
def anonymised : PurgeClock := ⟨some march, none, none, some (march + 31 * day), false, none⟩

/-- Purged, with the rows given. -/
def gone (rows : List (Row ℕ)) (invitations : List (Invitation ℕ ℕ)) : Db ℕ ℕ :=
  { leaving with account := anonymised, rows := rows, invitations := invitations }

/-- The purge, from its beginning to its commit, beside a request that holds nothing. -/
theorem purged_beside {live : Db ℕ ℕ → Prop} {other : Tx ℕ ℕ} (hother : other.held = []) :
    Steps (system fromMarch live) ⟨leaving, two other .idle⟩ ⟨gone [] leaving.invitations, two other .idle⟩ := by
  refine .head (Step.second (.begin leaving) (System.apart_of_nil hother _)) ?_
  refine .head (Step.second (.judge leaving _ leaving.clock anonymised rfl rfl) (System.apart_of_nil hother _)) ?_
  refine .trans (steps_delete hother anonymised purgedTables _ rfl) ?_
  exact .single (Step.second (.purged leaving _ anonymised rfl) (System.apart_of_nil_left rfl _))

/-- Alone, the purge leaves nothing. -/
theorem nothing_left_leaving : (gone [] leaving.invitations).rows = [] := by
  have hrun : Steps (system fromMarch Live) ⟨leaving, two .idle .idle⟩ ⟨gone [] leaving.invitations, two .idle .idle⟩ :=
    purged_beside rfl
  exact (nothing_left (fun i => by cases i <;> rfl) (fun h => absurd h (by decide)) hrun rfl).1

/-- The request was checked and the invitation found before the purge: the membership it inserts stays. -/
theorem membership_left : ¬∀ w w' : World (Db ℕ ℕ) (Tx ℕ ℕ) Bool,
    (∀ i, w.client i = .idle) → Clear w.shared → Steps (system fromMarch fun _ => True) w w' →
    (∀ i, w'.client i = .idle) → w'.shared.account.deletedAt.isSome → w'.shared.rows = [] := by
  intro h
  have hidle : ∀ i, two (Tx.idle (R := ℕ) (T := ℕ)) .idle i = .idle := fun i => by cases i <;> rfl
  have hrun : Steps (system fromMarch fun _ => True) ⟨leaving, two .idle .idle⟩
      ⟨gone [(.groupMembers, 0)] [], two .idle .idle⟩ := by
    refine .head (Step.first (.check leaving (.acceptInvitation 0) rfl) (System.apart_of_nil rfl _)) ?_
    refine .head (Step.first (.lookup leaving _ 0 ⟨0, 0, march + 32 * day⟩ rfl rfl) (System.apart_of_nil rfl _)) ?_
    refine .trans (purged_beside rfl) ?_
    refine .head (Step.first (.hold _ _ 0 0 ⟨0, 0, march + 32 * day⟩ rfl rfl) (System.apart_of_nil rfl _)) ?_
    refine .head (Step.first (.unexpired _ _ 0 0 (march + 32 * day) rfl (by decide)) (System.apart_of_nil rfl _)) ?_
    refine .head (Step.first (.consume _ _ 0 0 rfl) (System.apart_of_nil rfl _)) ?_
    refine .head (Step.first (.join _ _ 0 rfl fun _ => trivial) (System.apart_of_nil rfl _)) ?_
    exact .single (Step.first (.commit _ _ rfl) (System.apart_of_nil rfl _))
  have hrows := h _ _ hidle (fun h => absurd h (by decide)) hrun hidle rfl
  exact absurd hrows (by decide)

end Home.Account.PersonalRows
