import Mathlib.Data.List.Basic
import ManageOurHome.Auth.Verification

/-! @src apps/api/src/auth/mod.rs | layer:proof | family:authentication

    One verification link per cooldown, over every interleaving in which no two statements that found no recent token
    run at once. The statement is atomic, and not alone: two copies that read before either commits both find nothing
    recent and both insert, whether or not the second has waited for the first on an older token, for only that token
    is read again.

        a: snapshot ─ b: snapshot ─ a: UPDATE, INSERT, commit ─ b: leaves the older token, INSERT, commit

    A link verifies once whatever happens beside: it is held from its reading to its consumption. -/

namespace Home.Auth.Verification

open RowLocks Relation

variable {T : Type} {s s' : Db T} {l l' m : Pc T} {tokens : List (Token T)} {t : T} {taken : List T}

/-! ### The tokens -/

theorem mem_outstanding : t ∈ outstanding tokens ↔ ∃ r ∈ tokens, r.consumed = false ∧ r.token = t := by
  simp [outstanding, and_assoc]

theorem outstanding_cons_issued (token : T) (now expiresAt : ℤ) (tokens : List (Token T)) :
    outstanding (⟨token, now, expiresAt, false, true⟩ :: tokens) = token :: outstanding tokens := rfl

/-- Nothing was created within the cooldown. -/
theorem recent_eq_false {now : ℤ} :
    recent now tokens = false ↔ ∀ r ∈ tokens, r.createdAt + verificationResendCooldown ≤ now := by
  simp only [recent, List.any_eq_false, decide_eq_true_eq]
  refine forall₂_congr fun r _ => ?_
  omega

variable [DecidableEq T]

@[simp] theorem map_token_consume : (consume taken tokens).map Token.token = tokens.map Token.token := by
  simp only [consume, List.map_map]
  refine List.map_congr_left fun r _ => ?_
  simp only [Function.comp]
  split <;> rfl

/-- Consumption keeps everything else. -/
theorem mem_consume {r : Token T} (h : r ∈ consume taken tokens) :
    ∃ x ∈ tokens, r = { x with consumed := r.consumed } ∧ (r.consumed = false → x = r ∧ x.token ∉ taken) := by
  obtain ⟨x, hx, rfl⟩ := List.mem_map.mp h
  refine ⟨x, hx, ?_⟩
  by_cases ht : x.token ∈ taken
  · simp [ht]
  · simp [ht]

theorem mem_outstanding_consume : t ∈ outstanding (consume taken tokens) ↔ t ∈ outstanding tokens ∧ t ∉ taken := by
  constructor
  · intro h
    obtain ⟨r, hr, hlive, rfl⟩ := mem_outstanding.mp h
    obtain ⟨x, hx, -, hsame⟩ := mem_consume hr
    obtain ⟨rfl, hfree⟩ := hsame hlive
    exact ⟨mem_outstanding.mpr ⟨x, hx, hlive, rfl⟩, hfree⟩
  · rintro ⟨h, hfree⟩
    obtain ⟨r, hr, hlive, rfl⟩ := mem_outstanding.mp h
    exact mem_outstanding.mpr ⟨r, List.mem_map.mpr ⟨r, hr, if_neg hfree⟩, hlive, rfl⟩

/-! ### A link verifies once -/

/-- The tokens a request has locked, and found not consumed. -/
def claimed : Pc T → List T
  | .issuing _ _ _ _ taken => taken
  | .found token false _ | .accepted token | .written token => [token]
  | _ => []

omit [DecidableEq T] in
/-- A claim is a row held, in a mode no other can hold it in. -/
theorem held_of_claimed (serial : Bool) (h : t ∈ claimed l) :
    ∃ mode, (.token t, mode) ∈ held serial l ∧ mode ≠ .keyShare := by
  cases l with
  | issuing token expiresAt now left taken =>
    exact ⟨.noKeyUpdate, List.mem_append_right _ (List.mem_map.mpr ⟨t, h, rfl⟩), by decide⟩
  | found token consumed expiresAt =>
    cases consumed with
    | true => exact absurd h List.not_mem_nil
    | false =>
      obtain rfl := List.mem_singleton.mp h
      exact ⟨.update, List.mem_cons_self, by decide⟩
  | accepted token =>
    obtain rfl := List.mem_singleton.mp h
    exact ⟨.update, List.mem_cons_self, by decide⟩
  | written token =>
    obtain rfl := List.mem_singleton.mp h
    exact ⟨.update, List.mem_cons_of_mem _ List.mem_cons_self, by decide⟩
  | _ => exact absurd h List.not_mem_nil

theorem conflicts_of_ne_keyShare {a b : Mode} (ha : a ≠ .keyShare) (hb : b ≠ .keyShare) : a.conflicts b = true := by
  cases a <;> cases b <;> first | rfl | exact absurd rfl ha | exact absurd rfl hb

/-- No two claim one token. -/
theorem not_claimed_of_apart {serial : Bool} (hapart : (system serial).Apart l m) (hl : t ∈ claimed l) : t ∉ claimed m := by
  intro hm
  obtain ⟨a, ha, hane⟩ := held_of_claimed serial hl
  obtain ⟨b, hb, hbne⟩ := held_of_claimed serial hm
  have hfree := hapart (.token t) a b ha hb
  rw [conflicts_of_ne_keyShare hane hbne] at hfree
  exact absurd hfree (by decide)

structure VerifiedOnce (s : Db T) : Prop where
  nodup : s.verifiedBy.Nodup
  known : ∀ t ∈ s.verifiedBy, t ∈ s.tokens.map Token.token
  consumed : ∀ t ∈ s.verifiedBy, t ∉ outstanding s.tokens

/-- What a request has claimed is not consumed. -/
def Claims (s : Db T) (l : Pc T) : Prop := ∀ t ∈ claimed l, t ∈ outstanding s.tokens

omit [DecidableEq T] in
theorem claims_nil (s : Db T) (h : claimed l = []) : Claims s l := by
  intro t ht
  rw [h] at ht
  exact absurd ht List.not_mem_nil

/-- STEP: what a request claims stays its own. -/
theorem preserved_verifiedOnce (serial : Bool) : Preserved (system (T := T) serial) VerifiedOnce Claims where
  env s s' h henv := by
    cases henv with
    | tick clock hclock => exact ⟨h.nodup, h.known, h.consumed⟩
  env_client s s' l _ hl henv := by
    cases henv with
    | tick clock hclock => exact hl
  move s l s' l' h hl hmove := by
    cases hmove with
    | invalidate token expiresAt now t left taken ht =>
      refine ⟨h, ?_⟩
      intro u hu
      rcases List.mem_cons.mp hu with rfl | hu
      · exact ht
      · exact hl u hu
    | leave token expiresAt now t left taken ht => exact ⟨h, hl⟩
    | issue token expiresAt now taken hnew =>
      refine ⟨⟨h.nodup, ?_, ?_⟩, claims_nil _ rfl⟩
      · intro t ht
        have hknown := h.known t ht
        simp [hknown]
      · intro t ht hmem
        rw [outstanding_cons_issued] at hmem
        rcases List.mem_cons.mp hmem with rfl | hmem
        · exact hnew (h.known t ht)
        · exact h.consumed t ht (mem_outstanding_consume.mp hmem).1
    | lockToken r hr =>
      refine ⟨h, ?_⟩
      intro t ht
      cases hconsumed : r.consumed with
      | true =>
        rw [hconsumed] at ht
        exact absurd ht List.not_mem_nil
      | false =>
        rw [hconsumed] at ht
        obtain rfl := List.mem_singleton.mp ht
        exact mem_outstanding.mpr ⟨r, hr, hconsumed, rfl⟩
    | accept token expiresAt hexpires => exact ⟨h, hl⟩
    | write token => exact ⟨h, hl⟩
    | verify token =>
      have hlive : token ∈ outstanding s.tokens := hl token List.mem_cons_self
      refine ⟨⟨List.nodup_cons.mpr ⟨fun ht => h.consumed token ht hlive, h.nodup⟩, ?_, ?_⟩, claims_nil _ rfl⟩
      · intro t ht
        rw [map_token_consume]
        rcases List.mem_cons.mp ht with rfl | ht
        · obtain ⟨r, hr, -, hrt⟩ := mem_outstanding.mp hlive
          exact List.mem_map.mpr ⟨r, hr, hrt⟩
        · exact h.known t ht
      · intro t ht hmem
        obtain ⟨hout, hne⟩ := mem_outstanding_consume.mp hmem
        rcases List.mem_cons.mp ht with rfl | ht
        · exact hne List.mem_cons_self
        · exact h.consumed t ht hout
    | giveUp | find | draw | stamp | skip | read | follow => exact ⟨h, claims_nil _ rfl⟩
  move_other s l s' l' m hapart _ _ hm hmove := by
    intro t ht
    cases hmove with
    | issue token expiresAt now taken hnew =>
      rw [outstanding_cons_issued]
      refine List.mem_cons_of_mem _ (mem_outstanding_consume.mpr ⟨hm t ht, fun htaken => ?_⟩)
      exact not_claimed_of_apart hapart htaken ht
    | verify token =>
      refine mem_outstanding_consume.mpr ⟨hm t ht, fun htoken => ?_⟩
      exact not_claimed_of_apart hapart htoken ht
    | _ => exact hm t ht

/-! ### One link per cooldown -/

def Far (a b : Token T) : Prop :=
  a.createdAt + verificationResendCooldown ≤ b.createdAt ∨ b.createdAt + verificationResendCooldown ≤ a.createdAt

/-- The tokens issued are far from one another, and all but one are consumed. -/
structure OnePerCooldown (s : Db T) : Prop where
  far : (s.tokens.filter Token.issued).Pairwise Far
  open_ : (s.tokens.filter fun r => r.issued && !r.consumed).length ≤ 1

/-- A statement that issues has seen every token: none recent, and those not consumed are on its way. -/
def Sees (s : Db T) (l : Pc T) : Prop := ∀ token expiresAt now left taken, l = .issuing token expiresAt now left taken →
  (∀ r ∈ s.tokens, r.createdAt + verificationResendCooldown ≤ now) ∧ ∀ t ∈ outstanding s.tokens, t ∈ left ∨ t ∈ taken

omit [DecidableEq T] in
theorem sees_of_ne (s : Db T) (h : ∀ token expiresAt now left taken, l ≠ .issuing token expiresAt now left taken) :
    Sees s l := fun token expiresAt now left taken hl => absurd hl (h token expiresAt now left taken)

theorem pairwise_consume (h : (tokens.filter Token.issued).Pairwise Far) :
    ((consume taken tokens).filter Token.issued).Pairwise Far := by
  rw [consume, List.filter_map, List.pairwise_map]
  have hissued : (Token.issued ∘ fun r : Token T => if r.token ∈ taken then { r with consumed := true } else r) =
      Token.issued := by
    funext r
    simp only [Function.comp]
    split <;> rfl
  rw [hissued]
  refine h.imp fun {a b} hab => ?_
  have hcreated : ∀ r : Token T,
      (if r.token ∈ taken then { r with consumed := true } else r).createdAt = r.createdAt := fun r => by split <;> rfl
  rw [Far, hcreated, hcreated]
  exact hab

theorem open_consume (taken : List T) (tokens : List (Token T)) :
    ((consume taken tokens).filter fun r => r.issued && !r.consumed).length ≤
      (tokens.filter fun r => r.issued && !r.consumed).length := by
  rw [consume, List.filter_map, List.length_map]
  refine (List.monotone_filter_right tokens ?_).length_le
  intro r hr
  simp only [Function.comp] at hr
  split at hr
  · simp at hr
  · exact hr

/-- What a statement that has come to its end leaves. -/
theorem OnePerCooldown.issue (h : OnePerCooldown s) {token : T} {expiresAt now : ℤ}
    (hfar : ∀ r ∈ s.tokens, r.createdAt + verificationResendCooldown ≤ now)
    (htaken : ∀ t ∈ outstanding s.tokens, t ∈ taken) :
    OnePerCooldown { s with tokens := ⟨token, now, expiresAt, false, true⟩ :: consume taken s.tokens } where
  far := by
    refine List.Pairwise.cons (fun r hr => ?_) (pairwise_consume h.far)
    obtain ⟨x, hx, hsame, -⟩ := mem_consume (List.mem_filter.mp hr).1
    refine .inr ?_
    have hcreated : r.createdAt = x.createdAt := by rw [hsame]
    change r.createdAt + verificationResendCooldown ≤ now
    rw [hcreated]
    exact hfar x hx
  open_ := by
    have hnone : (consume taken s.tokens).filter (fun r => r.issued && !r.consumed) = [] := by
      refine List.filter_eq_nil_iff.mpr fun r hr hopen => ?_
      have hlive : r.consumed = false := by simpa using (Bool.and_eq_true_iff.mp hopen).2
      obtain ⟨hout, hfree⟩ := mem_outstanding_consume.mp (mem_outstanding.mpr ⟨r, hr, hlive, rfl⟩)
      exact hfree (htaken _ hout)
    have hcons : (⟨token, now, expiresAt, false, true⟩ :: consume taken s.tokens).filter
        (fun r => r.issued && !r.consumed) = [⟨token, now, expiresAt, false, true⟩] := by
      rw [List.filter_cons_of_pos rfl, hnone]
    rw [hcons]
    exact Nat.le_refl 1

/-- STEP: the statements that issue one after the other, what they have seen stays all there is. -/
theorem preserved_onePerCooldown : Preserved (system (T := T) true) OnePerCooldown Sees where
  env s s' h henv := by
    cases henv with
    | tick clock hclock => exact ⟨h.far, h.open_⟩
  env_client s s' l _ hl henv := by
    cases henv with
    | tick clock hclock => exact hl
  move s l s' l' h hl hmove := by
    cases hmove with
    | read token expiresAt now left hrecent hleft =>
      refine ⟨h, ?_⟩
      rintro _ _ _ _ _ ⟨⟩
      exact ⟨recent_eq_false.mp hrecent, fun t ht => .inl (hleft.mem_iff.mpr ht)⟩
    | invalidate token expiresAt now t left taken ht =>
      obtain ⟨hfar, hseen⟩ := hl _ _ _ _ _ rfl
      refine ⟨h, ?_⟩
      rintro _ _ _ _ _ ⟨⟩
      refine ⟨hfar, fun u hu => ?_⟩
      rcases hseen u hu with hleft | htaken
      · rcases List.mem_cons.mp hleft with rfl | hleft
        · exact .inr List.mem_cons_self
        · exact .inl hleft
      · exact .inr (List.mem_cons_of_mem _ htaken)
    | leave token expiresAt now t left taken ht =>
      obtain ⟨hfar, hseen⟩ := hl _ _ _ _ _ rfl
      refine ⟨h, ?_⟩
      rintro _ _ _ _ _ ⟨⟩
      refine ⟨hfar, fun u hu => ?_⟩
      rcases hseen u hu with hleft | htaken
      · rcases List.mem_cons.mp hleft with rfl | hleft
        · exact absurd hu ht
        · exact .inl hleft
      · exact .inr htaken
    | issue token expiresAt now taken hnew =>
      obtain ⟨hfar, hseen⟩ := hl _ _ _ _ _ rfl
      refine ⟨h.issue hfar fun t ht => ?_, sees_of_ne _ (by simp)⟩
      exact (hseen t ht).resolve_left List.not_mem_nil
    | verify token =>
      exact ⟨⟨pairwise_consume h.far, Nat.le_trans (open_consume _ _) h.open_⟩, sees_of_ne _ (by simp)⟩
    | _ => exact ⟨h, sees_of_ne _ (by simp)⟩
  move_other s l s' l' m hapart _ _ hm hmove := by
    rintro token expiresAt now left taken rfl
    obtain ⟨hfar, hseen⟩ := hm _ _ _ _ _ rfl
    cases hmove with
    | issue token' expiresAt' now' taken' hnew =>
      -- both would hold what only one can
      exact absurd (hapart .issuing .update .update List.mem_cons_self List.mem_cons_self) (by decide)
    | verify token' =>
      refine ⟨fun r hr => ?_, fun t ht => hseen t (mem_outstanding_consume.mp ht).1⟩
      obtain ⟨x, hx, hsame, -⟩ := mem_consume hr
      have hcreated : r.createdAt = x.createdAt := by rw [hsame]
      rw [hcreated]
      exact hfar x hx
    | _ => exact ⟨hfar, hseen⟩

/-! ### Statements one after the other -/

def Pc.isIssuing : Pc T → Bool
  | .issuing _ _ _ _ _ => true
  | _ => false

/-- At most one statement that found no recent token is under way. -/
def Alone {τ : Type} (w : World (Db T) (Pc T) τ) : Prop :=
  ∀ i j, i ≠ j → (w.client i).isIssuing = true → (w.client j).isIssuing = false

omit [DecidableEq T] in
theorem mem_held_true {k : Lock T} {a : Mode} (h : (k, a) ∈ held true l) :
    (k = .issuing ∧ l.isIssuing = true) ∨ (k ≠ .issuing ∧ (k, a) ∈ held false l) := by
  cases l with
  | issuing token expiresAt now left taken =>
    rcases List.mem_cons.mp h with hk | hk
    · exact .inl ⟨(Prod.mk.inj hk).1, rfl⟩
    · refine .inr ⟨?_, hk⟩
      rintro rfl
      obtain ⟨t, -, ht⟩ := List.mem_map.mp hk
      exact absurd ht (by simp)
  | found token consumed expiresAt =>
    obtain ⟨rfl, rfl⟩ := Prod.mk.inj (List.mem_singleton.mp h)
    exact .inr ⟨by simp, h⟩
  | accepted token =>
    obtain ⟨rfl, rfl⟩ := Prod.mk.inj (List.mem_singleton.mp h)
    exact .inr ⟨by simp, h⟩
  | written token =>
    refine .inr ⟨?_, h⟩
    rintro rfl
    simp [held] at h
  | _ => exact absurd h List.not_mem_nil

variable {τ : Type} [DecidableEq τ] {w w' : World (Db T) (Pc T) τ}

theorem Step.serial (h : Step (system false) w w') (halone : Alone w') : Step (system true) w w' := by
  cases h with
  | env s henv => exact .env w s henv
  | move i s l hmove hgranted =>
    refine .move w i s l hmove fun j hj k a b ha hb => ?_
    rcases mem_held_true ha with ⟨rfl, hl⟩ | ⟨hk, ha⟩
    · rcases mem_held_true hb with ⟨-, hm⟩ | ⟨hk, -⟩
      · have hother := halone i j hj.symm (by simpa using hl)
        dsimp only at hother
        rw [Function.update_of_ne hj] at hother
        exact absurd hm (by simp [hother])
      · exact absurd rfl hk
    · rcases mem_held_true hb with ⟨hissuing, -⟩ | ⟨-, hb⟩
      · exact absurd hissuing hk
      · exact hgranted j hj k a b ha hb

/-- CORRECT: a link verifies the address once at most; and where no two statements that found no recent token are ever
    under way at once, those issued are the cooldown apart, and one of them at most is not consumed. -/
theorem one_per_cooldown (hidle : ∀ i, w.client i = .idle) (hverified : w.shared.verifiedBy = [])
    (hissued : ∀ r ∈ w.shared.tokens, r.issued = false) :
    (Steps (system false) w w' → w'.shared.verifiedBy.Nodup) ∧
    (ReflTransGen (fun w w' => Step (system false) w w' ∧ Alone w') w w' → OnePerCooldown w'.shared) := by
  constructor
  · intro hrun
    have hstart : Holds (system false) VerifiedOnce Claims w := by
      refine .of_nil (fun i => by rw [hidle i]; rfl) ⟨?_, ?_, ?_⟩ fun i => by rw [hidle i]; exact claims_nil _ rfl
      · rw [hverified]
        exact List.nodup_nil
      · rw [hverified]
        exact fun t ht => absurd ht List.not_mem_nil
      · rw [hverified]
        exact fun t ht => absurd ht List.not_mem_nil
    exact ((preserved_verifiedOnce false).steps hstart hrun).shared.nodup
  · intro hrun
    have hserial : Steps (system true) w w' :=
      ReflTransGen.mono (fun _ _ hstep => Step.serial hstep.1 hstep.2) _ _ hrun
    have hnone : w.shared.tokens.filter Token.issued = [] :=
      List.filter_eq_nil_iff.mpr fun r hr => by simp [hissued r hr]
    have hstart : Holds (system true) OnePerCooldown Sees w := by
      refine .of_nil (fun i => by rw [hidle i]; rfl) ⟨?_, ?_⟩ fun i => by rw [hidle i]; exact sees_of_ne _ (by simp)
      · rw [hnone]
        exact List.Pairwise.nil
      · have hopen : w.shared.tokens.filter (fun r => r.issued && !r.consumed) = [] :=
          List.filter_eq_nil_iff.mpr fun r hr => by simp [hissued r hr]
        rw [hopen]
        exact Nat.zero_le 1
    exact (preserved_onePerCooldown.steps hstart hserial).shared

/-! ### Two copies of the statement -/

/-- An account just registered: the link it was mailed is a minute old. -/
def registered : Db ℕ := ⟨minute, false, [⟨0, 0, emailVerificationTtl, false, false⟩], []⟩

/-- A link issued to it. -/
def link (token : ℕ) : Token ℕ := ⟨token, minute, minute + emailVerificationTtl, false, true⟩

/-- The first link consumed, and the links given beside it. -/
def issuedTo (links : List (Token ℕ)) : Db ℕ :=
  { registered with tokens := links ++ [⟨0, 0, emailVerificationTtl, true, false⟩] }

/-- Where a request is when it has read the tokens. -/
def reading (token : ℕ) : Pc ℕ := .issuing token (minute + emailVerificationTtl) minute [0] []

theorem idle_two (i : Bool) : two (Pc.idle : Pc ℕ) .idle i = .idle := by cases i <;> rfl

theorem alone_two {s : Db ℕ} {a b : Pc ℕ} (h : a.isIssuing = false ∨ b.isIssuing = false) : Alone ⟨s, two a b⟩ := by
  intro i j hij hi
  cases i <;> cases j
  · exact absurd rfl hij
  · exact h.resolve_left (by simpa [two] using hi)
  · exact h.resolve_right (by simpa [two] using hi)
  · exact absurd rfl hij

/-- Up to the snapshot, beside another that has read it too or has yet to begin. -/
theorem second_reads (a : Pc ℕ) :
    Steps (system false) ⟨registered, two a .idle⟩ ⟨registered, two a (reading 2)⟩ := by
  have hapart : ∀ l : Pc ℕ, held false l = [] → (system (T := ℕ) false).Apart l a := fun l hl =>
    System.apart_of_nil_left hl a
  refine .head (Step.second (.find registered rfl) (hapart _ rfl)) ?_
  refine .head (Step.second (.draw registered 2) (hapart _ rfl)) ?_
  refine .head (Step.second (.stamp registered 2 _) (hapart _ rfl)) ?_
  exact .single (Step.second (.read registered 2 _ minute [0] (by decide) (List.Perm.refl _)) (hapart _ rfl))

/-- The first request alone, whole: its link is there, the older one is consumed. -/
theorem one_per_cooldown_registered : (issuedTo [link 1]).verifiedBy.Nodup ∧ OnePerCooldown (issuedTo [link 1]) := by
  have hnone : ∀ l : Pc ℕ, (system (T := ℕ) false).Apart l .idle := System.apart_of_nil rfl
  have hrun : ReflTransGen (fun w w' => Step (system false) w w' ∧ Alone w') ⟨registered, two .idle .idle⟩
      ⟨issuedTo [link 1], two (.idle : Pc ℕ) .idle⟩ := by
    refine .head ⟨Step.first (.find registered rfl) (hnone _), alone_two (.inr rfl)⟩ ?_
    refine .head ⟨Step.first (.draw registered 1) (hnone _), alone_two (.inr rfl)⟩ ?_
    refine .head ⟨Step.first (.stamp registered 1 _) (hnone _), alone_two (.inr rfl)⟩ ?_
    refine .head ⟨Step.first (.read registered 1 _ minute [0] (by decide) (List.Perm.refl _)) (hnone _),
      alone_two (.inr rfl)⟩ ?_
    refine .head ⟨Step.first (.invalidate registered 1 _ minute 0 [] [] (by decide)) (hnone _), alone_two (.inr rfl)⟩ ?_
    exact .single ⟨Step.first (.issue registered 1 _ minute [0] (by decide)) (hnone _), alone_two (.inr rfl)⟩
  have hsteps : Steps (system false) ⟨registered, two .idle .idle⟩ ⟨issuedTo [link 1], two (.idle : Pc ℕ) .idle⟩ :=
    ReflTransGen.mono (fun _ _ h => h.1) _ _ hrun
  exact ⟨(one_per_cooldown idle_two rfl (by decide)).1 hsteps, (one_per_cooldown idle_two rfl (by decide)).2 hrun⟩

/-- Both read before either commits: two links at one instant, both open. -/
theorem slipped_past : ¬∀ w w' : World (Db ℕ) (Pc ℕ) Bool, (∀ i, w.client i = .idle) → w.shared.verifiedBy = [] →
    (∀ r ∈ w.shared.tokens, r.issued = false) → Steps (system false) w w' →
    w'.shared.verifiedBy.Nodup ∧ OnePerCooldown w'.shared := by
  intro hclaim
  have hnone : ∀ l : Pc ℕ, (system (T := ℕ) false).Apart l .idle := System.apart_of_nil rfl
  have hreading : ∀ l : Pc ℕ, (system (T := ℕ) false).Apart l (reading 2) := System.apart_of_nil rfl
  have hrun : Steps (system false) ⟨registered, two .idle .idle⟩
      ⟨issuedTo [link 2, link 1], two (.idle : Pc ℕ) .idle⟩ := by
    refine .head (Step.first (.find registered rfl) (hnone _)) ?_
    refine .head (Step.first (.draw registered 1) (hnone _)) ?_
    refine .head (Step.first (.stamp registered 1 _) (hnone _)) ?_
    refine .head (Step.first (.read registered 1 _ minute [0] (by decide) (List.Perm.refl _)) (hnone _)) ?_
    refine .trans (second_reads (reading 1)) ?_
    refine .head (Step.first (.invalidate registered 1 _ minute 0 [] [] (by decide)) (hreading _)) ?_
    refine .head (Step.first (.issue registered 1 _ minute [0] (by decide)) (hreading _)) ?_
    refine .head (Step.second (.leave (issuedTo [link 1]) 2 _ minute 0 [] [] (by decide)) (hnone _)) ?_
    exact .single (Step.second (.issue (issuedTo [link 1]) 2 _ minute [] (by decide)) (hnone _))
  have hopen := (hclaim _ _ idle_two rfl (by decide) hrun).2.open_
  exact absurd hopen (by decide)

end Home.Auth.Verification
