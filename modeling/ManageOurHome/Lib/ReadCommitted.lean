import Mathlib.Logic.Relation
import ManageOurHome.Lib.FMap

/-! @lib READ COMMITTED | layer:library | family:concurrency

    Transactions on one table, interleaved statement by statement. A statement sees the rows
    committed before it, with its own transaction's uncommitted writes over them; a lock or a row
    written is held until the transaction ends, and a statement that needs one another transaction
    holds waits. A transaction's program is a transition system of its own: `code` gives the
    statement a local state is about to run, and what the statement answers gives the next one.

        begin ──▶ statement ──▶ … ──▶ commit   (its writes become the committed rows)
                      └──▶ abort               (its writes are forgotten)

    What a proof owes is small, for only two things happen to a transaction from outside: time
    passes, and another transaction commits. `Outline` lists the obligations; `Outline.reachable`
    carries them through every interleaving. -/

namespace ReadCommitted

open FiniteMap Relation

/-- One statement of a transaction, and where it leads. -/
inductive Stmt (κ ν ℓ ρ σ : Type*) where
  /-- Take an advisory lock, until the transaction ends. -/
  | lock (l : ℓ) (next : σ)
  /-- Read the database's clock. -/
  | clock (next : ℤ → σ)
  /-- `SELECT`. -/
  | query (next : FMap κ ν → σ)
  /-- `INSERT`, `UPDATE` or `DELETE`: the rows it writes, and what it reports, from the rows seen. -/
  | write (change : FMap κ ν → FMap κ (Option ν)) (next : FMap κ ν → σ)
  | commit (answer : ρ)
  | rollback

/-- A commit as it is remembered: what the transaction answered, the rows it left, and when. -/
structure Commit (κ ν ρ : Type*) where
  answer : ρ
  rows : FMap κ ν
  time : ℤ

/-- A transaction under way: where it is, what it wrote, and the locks it took. -/
structure Tx (κ ν ℓ σ : Type*) where
  at_ : σ
  pending : FMap κ (Option ν)
  locks : List ℓ

/-- What every transaction sees: the committed rows and the clock, with the commits so far, the
    last one first. -/
structure Shared (κ ν ρ : Type*) where
  rows : FMap κ ν
  clock : ℤ
  log : List (Commit κ ν ρ)

/-- The database and the transactions under way on it, by name. -/
structure World (κ ν ℓ ρ σ τ : Type*) extends Shared κ ν ρ where
  txs : τ → Option (Tx κ ν ℓ σ)

variable {κ ν ℓ ρ σ τ : Type*}

/-- A transaction that has just begun. -/
def Tx.begin (l : σ) : Tx κ ν ℓ σ := ⟨l, FMap.empty, []⟩

/-- Neither holds a lock or a written row of the other. -/
structure Tx.Apart (t u : Tx κ ν ℓ σ) : Prop where
  locks : ∀ l ∈ t.locks, l ∉ u.locks
  rows : ∀ k ∈ t.pending.keys, k ∉ u.pending.keys

theorem Tx.Apart.symm {t u : Tx κ ν ℓ σ} (h : t.Apart u) : u.Apart t :=
  ⟨fun l hu ht => h.locks l ht hu, fun k hu ht => h.rows k ht hu⟩

theorem Tx.Apart.get_eq_none {t u : Tx κ ν ℓ σ} (h : t.Apart u) {k : κ} {o : Option ν}
    (hu : u.pending.get k = some o) : t.pending.get k = none :=
  FMap.notMem_keys.mp fun ht => h.rows k ht (FMap.mem_keys_of_get hu)

variable [DecidableEq κ]

/-- The rows a statement of `t` sees. -/
def Tx.visible (t : Tx κ ν ℓ σ) (rows : FMap κ ν) : FMap κ ν := rows.patch t.pending

theorem Tx.visible_of_empty {t : Tx κ ν ℓ σ} (h : t.pending = FMap.empty) (rows : FMap κ ν) :
    t.visible rows = rows := by
  rw [Tx.visible, h, FMap.patch_empty]

/-- One statement other than a commit. -/
inductive Tx.Advance (code : σ → Stmt κ ν ℓ ρ σ) (s : Shared κ ν ρ) (t : Tx κ ν ℓ σ) :
    Tx κ ν ℓ σ → Prop where
  | lock (l : ℓ) (next : σ) (h : code t.at_ = .lock l next) :
      Advance code s t { t with at_ := next, locks := l :: t.locks }
  | clock (next : ℤ → σ) (h : code t.at_ = .clock next) :
      Advance code s t { t with at_ := next s.clock }
  | query (next : FMap κ ν → σ) (h : code t.at_ = .query next) :
      Advance code s t { t with at_ := next (t.visible s.rows) }
  | write (change : FMap κ ν → FMap κ (Option ν)) (next : FMap κ ν → σ)
      (h : code t.at_ = .write change next) :
      Advance code s t
        { t with at_ := next (t.visible s.rows)
                 pending := t.pending.merge (change (t.visible s.rows)) }

/-- What a commit of `t` leaves. -/
def Shared.commit (s : Shared κ ν ρ) (t : Tx κ ν ℓ σ) (answer : ρ) : Shared κ ν ρ where
  rows := t.visible s.rows
  clock := s.clock
  log := ⟨answer, t.visible s.rows, s.clock⟩ :: s.log

/-! ### What a statement does, from the code it runs -/

section

variable {code : σ → Stmt κ ν ℓ ρ σ} {s : Shared κ ν ρ} {t t' : Tx κ ν ℓ σ}

theorem Tx.Advance.of_lock (h : Tx.Advance code s t t') {l : ℓ} {next : σ}
    (hc : code t.at_ = .lock l next) : t' = { t with at_ := next, locks := l :: t.locks } := by
  cases h with
  | lock l' next' h' => obtain ⟨rfl, rfl⟩ := Stmt.lock.inj (hc.symm.trans h'); rfl
  | clock _ h' | query _ h' | write _ _ h' => exact absurd (hc.symm.trans h') (by simp)

theorem Tx.Advance.of_clock (h : Tx.Advance code s t t') {next : ℤ → σ}
    (hc : code t.at_ = .clock next) : t' = { t with at_ := next s.clock } := by
  cases h with
  | clock next' h' => obtain rfl := Stmt.clock.inj (hc.symm.trans h'); rfl
  | lock _ _ h' | query _ h' | write _ _ h' => exact absurd (hc.symm.trans h') (by simp)

theorem Tx.Advance.of_query (h : Tx.Advance code s t t') {next : FMap κ ν → σ}
    (hc : code t.at_ = .query next) : t' = { t with at_ := next (t.visible s.rows) } := by
  cases h with
  | query next' h' => obtain rfl := Stmt.query.inj (hc.symm.trans h'); rfl
  | lock _ _ h' | clock _ h' | write _ _ h' => exact absurd (hc.symm.trans h') (by simp)

theorem Tx.Advance.of_write (h : Tx.Advance code s t t')
    {change : FMap κ ν → FMap κ (Option ν)} {next : FMap κ ν → σ}
    (hc : code t.at_ = .write change next) :
    t' = { t with at_ := next (t.visible s.rows)
                  pending := t.pending.merge (change (t.visible s.rows)) } := by
  cases h with
  | write _ _ h' => obtain ⟨rfl, rfl⟩ := Stmt.write.inj (hc.symm.trans h'); rfl
  | lock _ _ h' | clock _ h' | query _ h' => exact absurd (hc.symm.trans h') (by simp)

/-- A transaction about to commit has no other statement to run. -/
theorem Tx.Advance.not_commit (h : Tx.Advance code s t t') {a : ρ} (hc : code t.at_ = .commit a) :
    False := by
  cases h with
  | lock _ _ h' | clock _ h' | query _ h' | write _ _ h' => exact absurd (hc.symm.trans h') (by simp)

theorem Tx.Advance.not_rollback (h : Tx.Advance code s t t') (hc : code t.at_ = .rollback) :
    False := by
  cases h with
  | lock _ _ h' | clock _ h' | query _ h' | write _ _ h' => exact absurd (hc.symm.trans h') (by simp)

end

variable [DecidableEq τ]

/-- One step of the whole: any transaction that need not wait may take it, its statement running
    only where `ok` lets it. -/
inductive StepIf (ok : Shared κ ν ρ → Tx κ ν ℓ σ → Prop) (code : σ → Stmt κ ν ℓ ρ σ)
    (starts : σ → Prop) : World κ ν ℓ ρ σ τ → World κ ν ℓ ρ σ τ → Prop where
  | tick (w : World κ ν ℓ ρ σ τ) (c : ℤ) (h : w.clock ≤ c) :
      StepIf ok code starts w { w with clock := c }
  | begin (w : World κ ν ℓ ρ σ τ) (i : τ) (l : σ) (hfree : w.txs i = none) (hstart : starts l) :
      StepIf ok code starts w { w with txs := Function.update w.txs i (some (Tx.begin l)) }
  | advance (w : World κ ν ℓ ρ σ τ) (i : τ) (t t' : Tx κ ν ℓ σ) (ht : w.txs i = some t)
      (hok : ok w.toShared t) (hadvance : Tx.Advance code w.toShared t t')
      (hgranted : ∀ j u, j ≠ i → w.txs j = some u → t'.Apart u) :
      StepIf ok code starts w { w with txs := Function.update w.txs i (some t') }
  | commit (w : World κ ν ℓ ρ σ τ) (i : τ) (t : Tx κ ν ℓ σ) (a : ρ) (ht : w.txs i = some t)
      (hcode : code t.at_ = .commit a) :
      StepIf ok code starts w
        { toShared := w.toShared.commit t a, txs := Function.update w.txs i none }
  /-- A rollback, an error, or a connection lost. -/
  | abort (w : World κ ν ℓ ρ σ τ) (i : τ) :
      StepIf ok code starts w { w with txs := Function.update w.txs i none }

/-- An empty table, nothing under way and nothing committed. -/
def World.init (c : ℤ) : World κ ν ℓ ρ σ τ := ⟨⟨FMap.empty, c, []⟩, fun _ => none⟩

/-- The table `rows`, and nothing under way. -/
def World.start (rows : FMap κ ν) (c : ℤ) : World κ ν ℓ ρ σ τ := ⟨⟨rows, c, []⟩, fun _ => none⟩

/-- The interleavings, from the empty table, whose statements all run where `ok` lets them. -/
def ReachableIf (ok : Shared κ ν ρ → Tx κ ν ℓ σ → Prop) (code : σ → Stmt κ ν ℓ ρ σ)
    (starts : σ → Prop) (w : World κ ν ℓ ρ σ τ) : Prop :=
  ∃ c, ReflTransGen (StepIf ok code starts) (World.init c) w

/-- One step of the whole. -/
abbrev Step (code : σ → Stmt κ ν ℓ ρ σ) (starts : σ → Prop) :
    World κ ν ℓ ρ σ τ → World κ ν ℓ ρ σ τ → Prop := StepIf (fun _ _ => True) code starts

/-- Every interleaving of any transactions, from the empty table. -/
abbrev Reachable (code : σ → Stmt κ ν ℓ ρ σ) (starts : σ → Prop) (w : World κ ν ℓ ρ σ τ) : Prop :=
  ReachableIf (fun _ _ => True) code starts w

/-! ### A transaction alone -/

/-- A transaction after `n` statements at one instant, or at its end if that comes before. -/
def Tx.go (code : σ → Stmt κ ν ℓ ρ σ) : ℕ → Shared κ ν ρ → Tx κ ν ℓ σ → Tx κ ν ℓ σ
  | 0, _, t => t
  | n + 1, s, t =>
    match code t.at_ with
    | .lock l next => Tx.go code n s { t with at_ := next, locks := l :: t.locks }
    | .clock next => Tx.go code n s { t with at_ := next s.clock }
    | .query next => Tx.go code n s { t with at_ := next (t.visible s.rows) }
    | .write change next => Tx.go code n s
        { t with at_ := next (t.visible s.rows)
                 pending := t.pending.merge (change (t.visible s.rows)) }
    | .commit _ => t
    | .rollback => t

/-- A transaction run to its end with nothing beside it, at one instant: what it leaves. `none` when
    it has not ended within the `n` statements allowed. -/
def Tx.run (code : σ → Stmt κ ν ℓ ρ σ) : ℕ → Shared κ ν ρ → Tx κ ν ℓ σ → Option (Shared κ ν ρ)
  | 0, _, _ => none
  | n + 1, s, t =>
    match code t.at_ with
    | .lock l next => Tx.run code n s { t with at_ := next, locks := l :: t.locks }
    | .clock next => Tx.run code n s { t with at_ := next s.clock }
    | .query next => Tx.run code n s { t with at_ := next (t.visible s.rows) }
    | .write change next => Tx.run code n s
        { t with at_ := next (t.visible s.rows)
                 pending := t.pending.merge (change (t.visible s.rows)) }
    | .commit a => some (s.commit t a)
    | .rollback => some s

/-- Under way, `o` under the name `i`, and the others `rest`. -/
def World.beside (rest : τ → Option (Tx κ ν ℓ σ)) (s : Shared κ ν ρ) (i : τ)
    (o : Option (Tx κ ν ℓ σ)) : World κ ν ℓ ρ σ τ :=
  ⟨s, Function.update rest i o⟩

/-- Nothing under way but `o`, under the name `i`. -/
abbrev World.only (s : Shared κ ν ρ) (i : τ) (o : Option (Tx κ ν ℓ σ)) : World κ ν ℓ ρ σ τ :=
  World.beside (fun _ => none) s i o

section Beside

variable {ok : Shared κ ν ρ → Tx κ ν ℓ σ → Prop} {code : σ → Stmt κ ν ℓ ρ σ} {starts : σ → Prop}
  {rest : τ → Option (Tx κ ν ℓ σ)} {s : Shared κ ν ρ} {i : τ} {t t' : Tx κ ν ℓ σ}

theorem World.beside_begin {l : σ} (h : starts l) :
    StepIf ok code starts (World.beside rest s i none) (World.beside rest s i (some (Tx.begin l))) := by
  have hstep : StepIf ok code starts (World.beside rest s i none) _ :=
    .begin _ i l (by simp [World.beside]) h
  simpa [World.beside] using hstep

theorem World.beside_step (hok : ok s t) (h : Tx.Advance code s t t')
    (hapart : ∀ j u, j ≠ i → rest j = some u → t'.Apart u) :
    StepIf ok code starts (World.beside rest s i (some t)) (World.beside rest s i (some t')) := by
  have hstep : StepIf ok code starts (World.beside rest s i (some t)) _ :=
    .advance _ i t t' (by simp [World.beside]) hok h fun j u hj hu =>
      hapart j u hj (by simpa [World.beside, hj] using hu)
  simpa [World.beside] using hstep

theorem World.beside_commit {a : ρ} (h : code t.at_ = .commit a) :
    StepIf ok code starts (World.beside rest s i (some t))
      (World.beside rest (s.commit t a) i none) := by
  have hstep : StepIf ok code starts (World.beside rest s i (some t)) _ :=
    .commit _ i t a (by simp [World.beside]) h
  simpa [World.beside] using hstep

theorem World.only_step (hok : ok s t) (h : Tx.Advance code s t t') :
    StepIf ok code starts (World.only s i (some t)) (World.only s i (some t')) :=
  World.beside_step hok h fun _ _ _ hu => absurd hu (by simp)

/-- Statements of a transaction, apart from the others all along: nothing shared changes. -/
theorem World.beside_go_shared (hok : ∀ t, ok s t) :
    ∀ (n : ℕ) (t : Tx κ ν ℓ σ), (∀ k ≤ n, ∀ j u, j ≠ i → rest j = some u →
        (Tx.go code k s t).Apart u) →
      ReflTransGen (fun w w' => StepIf ok code starts w w' ∧ w'.toShared = w.toShared)
        (World.beside rest s i (some t)) (World.beside rest s i (some (Tx.go code n s t))) := by
  intro n
  induction n with
  | zero => exact fun t _ => .refl
  | succ n ih =>
    intro t hapart
    have hone : ∀ t₁, (∀ k, Tx.go code (k + 1) s t = Tx.go code k s t₁) → Tx.Advance code s t t₁ →
        ReflTransGen (fun w w' => StepIf ok code starts w w' ∧ w'.toShared = w.toShared)
          (World.beside rest s i (some t))
          (World.beside rest s i (some (Tx.go code (n + 1) s t))) := fun t₁ hgo hadvance => by
      have hnext : ∀ k ≤ n, ∀ j u, j ≠ i → rest j = some u → (Tx.go code k s t₁).Apart u :=
        fun k hk j u hj hu => hgo k ▸ hapart (k + 1) (Nat.succ_le_succ hk) j u hj hu
      rw [hgo n]
      exact .head ⟨World.beside_step (hok t) hadvance (hnext 0 (Nat.zero_le n)), rfl⟩ (ih t₁ hnext)
    rcases hcode : code t.at_ with ⟨l, next⟩ | next | next | ⟨change, next⟩ | a | _
    · exact hone _ (fun k => by rw [Tx.go, hcode]) (.lock l next hcode)
    · exact hone _ (fun k => by rw [Tx.go, hcode]) (.clock next hcode)
    · exact hone _ (fun k => by rw [Tx.go, hcode]) (.query next hcode)
    · exact hone _ (fun k => by rw [Tx.go, hcode]) (.write change next hcode)
    · rw [Tx.go, hcode]
    · rw [Tx.go, hcode]

/-- Statements of a transaction, apart from the others all along. -/
theorem World.beside_go (hok : ∀ t, ok s t) (n : ℕ) (t : Tx κ ν ℓ σ)
    (hapart : ∀ k ≤ n, ∀ j u, j ≠ i → rest j = some u → (Tx.go code k s t).Apart u) :
    ReflTransGen (StepIf ok code starts) (World.beside rest s i (some t))
      (World.beside rest s i (some (Tx.go code n s t))) :=
  ReflTransGen.mono (fun _ _ h => h.1) _ _ (World.beside_go_shared hok n t hapart)

/-- Statements of a transaction, with nothing under way beside it. -/
theorem World.only_go (hok : ∀ t, ok s t) (n : ℕ) (t : Tx κ ν ℓ σ) :
    ReflTransGen (StepIf ok code starts) (World.only s i (some t))
      (World.only s i (some (Tx.go code n s t))) :=
  World.beside_go hok n t fun _ _ _ _ _ hu => absurd hu (by simp)

end Beside

/-- The transaction holds nothing yet. -/
structure Tx.Idle (t : Tx κ ν ℓ σ) : Prop where
  pending : t.pending = FMap.empty
  locks : t.locks = []

omit [DecidableEq κ] [DecidableEq τ] in
theorem Tx.Idle.apart {u : Tx κ ν ℓ σ} (h : u.Idle) (t : Tx κ ν ℓ σ) : t.Apart u := by
  refine ⟨fun l _ hl => ?_, fun k _ hk => ?_⟩
  · rw [h.locks] at hl
    exact absurd hl List.not_mem_nil
  · rw [h.pending] at hk
    exact absurd hk (Finset.notMem_empty k)

/-- Running at one go beside transactions that hold nothing is one of the interleavings. -/
theorem Tx.run_beside {code : σ → Stmt κ ν ℓ ρ σ} {starts : σ → Prop}
    {rest : τ → Option (Tx κ ν ℓ σ)} (i : τ) (hrest : ∀ j u, j ≠ i → rest j = some u → u.Idle) :
    ∀ (n : ℕ) (s : Shared κ ν ρ) (t : Tx κ ν ℓ σ) {s' : Shared κ ν ρ}, Tx.run code n s t = some s' →
      ReflTransGen (Step code starts) (World.beside rest s i (some t)) (World.beside rest s' i none) := by
  intro n
  have hgo : ∀ {s : Shared κ ν ρ} {t t' : Tx κ ν ℓ σ}, Tx.Advance code s t t' →
      Step code starts (World.beside rest s i (some t)) (World.beside rest s i (some t')) := fun h =>
    World.beside_step trivial h fun j u hj hu => (hrest j u hj hu).apart _
  induction n with
  | zero => intro s t s' h; exact absurd h (by simp [Tx.run])
  | succ n ih =>
    intro s t s' h
    rw [Tx.run] at h
    split at h
    · rename_i l next hcode; exact .head (hgo (.lock l next hcode)) (ih _ _ h)
    · rename_i next hcode; exact .head (hgo (.clock next hcode)) (ih _ _ h)
    · rename_i next hcode; exact .head (hgo (.query next hcode)) (ih _ _ h)
    · rename_i change next hcode
      exact .head (hgo (.write change next hcode)) (ih _ _ h)
    · rename_i a hcode
      obtain rfl := Option.some.inj h
      exact .single (World.beside_commit hcode)
    · obtain rfl := Option.some.inj h
      have hstep : Step code starts (World.beside rest s i (some t)) _ := .abort _ i
      exact .single (by simpa [World.beside] using hstep)

/-- Running alone is one of the interleavings. -/
theorem Tx.run_steps {code : σ → Stmt κ ν ℓ ρ σ} {starts : σ → Prop} (i : τ) (n : ℕ)
    (s : Shared κ ν ρ) (t : Tx κ ν ℓ σ) {s' : Shared κ ν ρ} (h : Tx.run code n s t = some s') :
    ReflTransGen (Step code starts) (World.only s i (some t)) (World.only s' i none) :=
  Tx.run_beside i (fun _ _ _ hu => absurd hu (by simp)) n s t h

omit [DecidableEq κ] in
/-- Beside one transaction, another name is free. -/
theorem World.only_eq_beside {i j : τ} (hij : j ≠ i) (s : Shared κ ν ρ) (o : Option (Tx κ ν ℓ σ)) :
    World.only s i o = World.beside (Function.update (fun _ => none) i o) s j none := by
  rw [World.only, World.beside, World.beside]
  congr 1
  exact (Function.update_eq_self_iff.mpr (by simp [hij])).symm

/-- While a transaction waits, holding nothing, another comes and goes. -/
theorem Tx.run_while {code : σ → Stmt κ ν ℓ ρ σ} {starts : σ → Prop} {i j : τ} (hij : j ≠ i)
    {t : Tx κ ν ℓ σ} (ht : t.Idle) {l : σ} (hstart : starts l) (n : ℕ) {s s' : Shared κ ν ρ}
    (h : Tx.run code n s (Tx.begin l) = some s') :
    ReflTransGen (Step code starts) (World.only s i (some t)) (World.only s' i (some t)) := by
  set rest : τ → Option (Tx κ ν ℓ σ) := Function.update (fun _ => none) i (some t) with hrest
  have hidle : ∀ j' u, j' ≠ j → rest j' = some u → u.Idle := fun j' u _ hu => by
    by_cases hi : j' = i
    · rw [hrest, hi, Function.update_self] at hu
      exact Option.some.inj hu ▸ ht
    · rw [hrest, Function.update_of_ne hi] at hu
      exact absurd hu (by simp)
  rw [World.only_eq_beside hij, World.only_eq_beside hij]
  exact .head (World.beside_begin hstart) (Tx.run_beside j hidle n s _ h)

/-- Run alone, the transaction ends and leaves `s'`. -/
def Tx.Runs (code : σ → Stmt κ ν ℓ ρ σ) (s : Shared κ ν ρ) (t : Tx κ ν ℓ σ) (s' : Shared κ ν ρ) :
    Prop := ∃ n, Tx.run code n s t = some s'

section

variable {code : σ → Stmt κ ν ℓ ρ σ} {s s' : Shared κ ν ρ} {t : Tx κ ν ℓ σ}

omit [DecidableEq τ]

theorem Tx.Runs.lock {l : ℓ} {next : σ} (hc : code t.at_ = .lock l next)
    (h : Tx.Runs code s { t with at_ := next, locks := l :: t.locks } s') : Tx.Runs code s t s' := by
  obtain ⟨n, h⟩ := h
  exact ⟨n + 1, by rw [Tx.run, hc]; exact h⟩

theorem Tx.Runs.clock {next : ℤ → σ} (hc : code t.at_ = .clock next)
    (h : Tx.Runs code s { t with at_ := next s.clock } s') : Tx.Runs code s t s' := by
  obtain ⟨n, h⟩ := h
  exact ⟨n + 1, by rw [Tx.run, hc]; exact h⟩

theorem Tx.Runs.query {next : FMap κ ν → σ} (hc : code t.at_ = .query next)
    (h : Tx.Runs code s { t with at_ := next (t.visible s.rows) } s') : Tx.Runs code s t s' := by
  obtain ⟨n, h⟩ := h
  exact ⟨n + 1, by rw [Tx.run, hc]; exact h⟩

theorem Tx.Runs.write {change : FMap κ ν → FMap κ (Option ν)} {next : FMap κ ν → σ}
    (hc : code t.at_ = .write change next)
    (h : Tx.Runs code s
      { t with at_ := next (t.visible s.rows)
               pending := t.pending.merge (change (t.visible s.rows)) } s') :
    Tx.Runs code s t s' := by
  obtain ⟨n, h⟩ := h
  exact ⟨n + 1, by rw [Tx.run, hc]; exact h⟩

theorem Tx.Runs.commit {a : ρ} (hc : code t.at_ = .commit a) :
    Tx.Runs code s t (s.commit t a) := ⟨1, by rw [Tx.run, hc]⟩

end

omit [DecidableEq τ] in
/-- A run alone takes no time. -/
theorem Tx.Runs.clock_eq {code : σ → Stmt κ ν ℓ ρ σ} {s s' : Shared κ ν ρ} {t : Tx κ ν ℓ σ}
    (h : Tx.Runs code s t s') : s'.clock = s.clock := by
  obtain ⟨n, h⟩ := h
  induction n generalizing t with
  | zero => exact absurd h (by simp [Tx.run])
  | succ n ih =>
    rw [Tx.run] at h
    split at h
    · exact ih h
    · exact ih h
    · exact ih h
    · exact ih h
    · obtain rfl := Option.some.inj h; rfl
    · obtain rfl := Option.some.inj h; rfl

omit [DecidableEq κ] in
theorem World.start_eq_only (rows : FMap κ ν) (c : ℤ) (i : τ) :
    (World.start rows c : World κ ν ℓ ρ σ τ) = World.only ⟨rows, c, []⟩ i none := by
  rw [start, only, beside, Function.update_eq_self]

/-- From the table `rows`, one transaction and nothing else. -/
theorem Tx.start_run {code : σ → Stmt κ ν ℓ ρ σ} {starts : σ → Prop} (i : τ) {l : σ}
    (hstart : starts l) {rows : FMap κ ν} {c : ℤ} {n : ℕ} {s : Shared κ ν ρ}
    (h : Tx.run code n ⟨rows, c, []⟩ (Tx.begin l) = some s) :
    ReflTransGen (Step code starts) (World.start rows c) (World.only s i none) := by
  rw [World.start_eq_only rows c i]
  exact .head (World.beside_begin hstart) (Tx.run_steps i n _ _ h)

/-- What is to prove of one program: `G` of what is shared, and `L` of each transaction under way,
    whatever the others commit meanwhile. -/
structure Preserved (ok : Shared κ ν ρ → Tx κ ν ℓ σ → Prop) (code : σ → Stmt κ ν ℓ ρ σ)
    (starts : σ → Prop) (G : Shared κ ν ρ → Prop) (L : Shared κ ν ρ → Tx κ ν ℓ σ → Prop) :
    Prop where
  tick : ∀ s c, s.clock ≤ c → G s → G { s with clock := c }
  tick_tx : ∀ s c t, s.clock ≤ c → G s → L s t → L { s with clock := c } t
  begin : ∀ s l, G s → starts l → L s (Tx.begin l)
  advance : ∀ s t t', ok s t → G s → L s t → Tx.Advance code s t t' → L s t'
  commit : ∀ s t a, G s → L s t → code t.at_ = .commit a → G (s.commit t a)
  commit_tx : ∀ s t a u, G s → L s t → code t.at_ = .commit a → L s u → t.Apart u →
    L (s.commit t a) u

/-- The same, from the empty table. -/
structure Outline (ok : Shared κ ν ρ → Tx κ ν ℓ σ → Prop) (code : σ → Stmt κ ν ℓ ρ σ)
    (starts : σ → Prop) (G : Shared κ ν ρ → Prop) (L : Shared κ ν ρ → Tx κ ν ℓ σ → Prop) : Prop
    extends Preserved ok code starts G L where
  init : ∀ c, G ⟨FMap.empty, c, []⟩

/-- What holds at every point of an interleaving. -/
structure Holds (G : Shared κ ν ρ → Prop) (L : Shared κ ν ρ → Tx κ ν ℓ σ → Prop)
    (w : World κ ν ℓ ρ σ τ) : Prop where
  shared : G w.toShared
  tx : ∀ i t, w.txs i = some t → L w.toShared t
  apart : ∀ i j t u, i ≠ j → w.txs i = some t → w.txs j = some u → t.Apart u

section

variable {ok : Shared κ ν ρ → Tx κ ν ℓ σ → Prop} {code : σ → Stmt κ ν ℓ ρ σ} {starts : σ → Prop}
  {G : Shared κ ν ρ → Prop} {L : Shared κ ν ρ → Tx κ ν ℓ σ → Prop}

omit [DecidableEq κ] in
theorem of_update {txs : τ → Option (Tx κ ν ℓ σ)} {i j : τ} {o : Option (Tx κ ν ℓ σ)}
    {t : Tx κ ν ℓ σ} (h : Function.update txs i o j = some t) :
    (j = i ∧ o = some t) ∨ (j ≠ i ∧ txs j = some t) := by
  by_cases hj : j = i
  · subst hj
    rw [Function.update_self] at h
    exact Or.inl ⟨rfl, h⟩
  · rw [Function.update_of_ne hj] at h
    exact Or.inr ⟨hj, h⟩

omit [DecidableEq κ] in
/-- Replacing one transaction by one apart from all others keeps them apart from each other. -/
theorem apart_update {txs : τ → Option (Tx κ ν ℓ σ)} {i : τ} {o : Option (Tx κ ν ℓ σ)}
    (h : ∀ i j t u, i ≠ j → txs i = some t → txs j = some u → t.Apart u)
    (ho : ∀ t, o = some t → ∀ j u, j ≠ i → txs j = some u → t.Apart u) :
    ∀ a b t u, a ≠ b → Function.update txs i o a = some t → Function.update txs i o b = some u →
      t.Apart u := by
  intro a b t u hab ha hb
  rcases of_update ha with ⟨rfl, hta⟩ | ⟨hai, hta⟩ <;>
    rcases of_update hb with ⟨rfl, hub⟩ | ⟨hbi, hub⟩
  · exact absurd rfl hab
  · exact ho t hta b u hbi hub
  · exact (ho u hub a t hai hta).symm
  · exact h a b t u hab hta hub

/-- STEP: what is preserved holds on. -/
theorem Preserved.step (o : Preserved ok code starts G L) {w w' : World κ ν ℓ ρ σ τ}
    (h : Holds G L w) (hstep : StepIf ok code starts w w') : Holds G L w' := by
  cases hstep with
  | tick c hc =>
    exact ⟨o.tick _ c hc h.shared, fun i t ht => o.tick_tx _ c t hc h.shared (h.tx i t ht), h.apart⟩
  | begin i l hfree hstart =>
    refine ⟨h.shared, fun j t ht => ?_, apart_update h.apart fun t ht j u _ _ => ?_⟩
    · rcases of_update ht with ⟨_, he⟩ | ⟨_, ht⟩
      · obtain rfl := Option.some.inj he
        exact o.begin _ l h.shared hstart
      · exact h.tx j t ht
    · obtain rfl := Option.some.inj ht
      exact ⟨fun l hl => absurd hl List.not_mem_nil, fun k hk => absurd hk (Finset.notMem_empty k)⟩
  | advance i t t' ht hok hadvance hgranted =>
    refine ⟨h.shared, fun j u hu => ?_, apart_update h.apart fun u hu j v hj hv => ?_⟩
    · rcases of_update hu with ⟨_, he⟩ | ⟨_, hu⟩
      · obtain rfl := Option.some.inj he
        exact o.advance _ t _ hok h.shared (h.tx i t ht) hadvance
      · exact h.tx j u hu
    · obtain rfl := Option.some.inj hu
      exact hgranted j v hj hv
  | commit i t a ht hcode =>
    refine ⟨o.commit _ t a h.shared (h.tx i t ht) hcode, fun j u hu => ?_,
      apart_update h.apart fun u hu => absurd hu (by simp)⟩
    rcases of_update hu with ⟨_, he⟩ | ⟨hj, hu⟩
    · exact absurd he (by simp)
    · exact o.commit_tx _ t a u h.shared (h.tx i t ht) hcode (h.tx j u hu)
        (h.apart i j t u (Ne.symm hj) ht hu)
  | abort i =>
    refine ⟨h.shared, fun j u hu => ?_, apart_update h.apart fun u hu => absurd hu (by simp)⟩
    rcases of_update hu with ⟨_, he⟩ | ⟨_, hu⟩
    · exact absurd he (by simp)
    · exact h.tx j u hu

/-- RUN: what is preserved holds on, from wherever it holds. -/
theorem Preserved.steps (o : Preserved ok code starts G L) {w w' : World κ ν ℓ ρ σ τ} (h : Holds G L w)
    (hrun : ReflTransGen (StepIf ok code starts) w w') : Holds G L w' := by
  induction hrun with
  | refl => exact h
  | tail _ hstep ih => exact o.step ih hstep

omit [DecidableEq κ] [DecidableEq τ] in
/-- With nothing under way, it holds where its shared part does. -/
theorem Holds.idle {s : Shared κ ν ρ} (h : G s) :
    Holds G L (⟨s, fun _ => none⟩ : World κ ν ℓ ρ σ τ) :=
  ⟨h, fun _ _ ht => absurd ht (by simp), fun _ _ _ _ _ ht => absurd ht (by simp)⟩

/-- RUN: an outline holds in every interleaving. -/
theorem Outline.reachable (o : Outline ok code starts G L) {w : World κ ν ℓ ρ σ τ}
    (h : ReachableIf ok code starts w) : Holds G L w := by
  obtain ⟨c, hrun⟩ := h
  exact o.steps (Holds.idle (o.init c)) hrun

/-- Only a commit changes what the rows are. -/
theorem StepIf.rows_eq_or_commit {w w' : World κ ν ℓ ρ σ τ} (h : StepIf ok code starts w w') :
    w'.rows = w.rows ∨
      ∃ i t a, w.txs i = some t ∧ code t.at_ = .commit a ∧ w'.toShared = w.toShared.commit t a := by
  cases h with
  | tick => exact Or.inl rfl
  | begin => exact Or.inl rfl
  | advance => exact Or.inl rfl
  | commit i t a ht hcode => exact Or.inr ⟨i, t, a, ht, hcode, rfl⟩
  | abort => exact Or.inl rfl

end

end ReadCommitted
