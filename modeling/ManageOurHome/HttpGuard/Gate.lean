import ManageOurHome.Lib.FMap

/-! @src apps/http_guard/src/gate.rs | layer:proof | family:uploads

    Uploads held at once, by each account and in all. A call takes a slot of its account, then one of the pool, and
    gives the first back if there is none of the second; a permit dropped gives both back, its account's first. Each of
    these is one step on the map or on the pool, and anything may happen between two of them.

        account 2 of 2   ──▶   refused, the pool untouched
        pool 8 of 8      ──▶   refused, its account's slot given back -/

namespace Home.HttpGuard

open FiniteMap

def GLOBAL_UPLOADS : ℕ := 8

def UPLOADS_PER_ACCOUNT : ℕ := 2

/-- Why an upload was turned away. -/
inductive Busy where
  | Account
  | Process
  deriving DecidableEq

section

variable {K : Type*} [DecidableEq K]

/-- Takes a slot if the key is under `limit`. -/
def takeSlot (counts : FMap K ℕ) (key : K) (limit : ℕ) : Option (FMap K ℕ) :=
  let held := (counts.get key).getD 0
  if limit ≤ held then none else some (counts.set key (some (held + 1)))

def releaseSlot (counts : FMap K ℕ) (key : K) : FMap K ℕ :=
  match counts.get key with
  | some held => if 1 < held then counts.set key (some (held - 1)) else counts.set key none
  | none => counts

end

/-- How far a call of `try_acquire` is, and the permit it gave. -/
inductive Stage where
  /-- Before its account's slot. -/
  | Called
  /-- With its account's slot, before the pool's. -/
  | Taken
  /-- The pool found empty, its account's slot not given back yet. -/
  | Refused
  /-- The permit given. -/
  | Held
  /-- The permit dropped, its account's slot given back and the pool's not yet. -/
  | Dropped
  deriving DecidableEq

/-- A call, or the permit it gave, by a name. -/
structure Flight (τ K : Type*) where
  name : τ
  key : K
  stage : Stage
  deriving DecidableEq

structure UploadGate (τ K : Type*) where
  processLimit : ℕ
  perKeyLimit : ℕ
  /-- The slots left in the pool. -/
  available : ℕ
  perKey : FMap K ℕ
  flights : List (Flight τ K)

inductive Event (τ : Type*) where
  | call (name : τ)
  | busy (name : τ) (why : Busy)
  | other

namespace UploadGate

section

variable {τ K : Type*} [DecidableEq K]

def new (processLimit perKeyLimit : ℕ) : UploadGate τ K := ⟨processLimit, perKeyLimit, processLimit, .empty, []⟩

def production : UploadGate τ K := new GLOBAL_UPLOADS UPLOADS_PER_ACCOUNT

/-- One step of a call or of a drop, between those of the others. -/
inductive Step : UploadGate τ K → Event τ → UploadGate τ K → Prop where
  | call (gate : UploadGate τ K) (i : τ) (k : K) (hfresh : ∀ f ∈ gate.flights, f.name ≠ i) :
      Step gate (.call i) { gate with flights := ⟨i, k, .Called⟩ :: gate.flights }
  | take {gate : UploadGate τ K} {before after : List (Flight τ K)} {i : τ} {k : K} {counts : FMap K ℕ}
      (hat : gate.flights = before ++ ⟨i, k, .Called⟩ :: after)
      (htake : takeSlot gate.perKey k gate.perKeyLimit = some counts) :
      Step gate .other { gate with perKey := counts, flights := before ++ ⟨i, k, .Taken⟩ :: after }
  | account {gate : UploadGate τ K} {before after : List (Flight τ K)} {i : τ} {k : K}
      (hat : gate.flights = before ++ ⟨i, k, .Called⟩ :: after)
      (htake : takeSlot gate.perKey k gate.perKeyLimit = none) :
      Step gate (.busy i .Account) { gate with flights := before ++ after }
  | acquire {gate : UploadGate τ K} {before after : List (Flight τ K)} {i : τ} {k : K}
      (hat : gate.flights = before ++ ⟨i, k, .Taken⟩ :: after) (hleft : 0 < gate.available) :
      Step gate .other
        { gate with available := gate.available - 1, flights := before ++ ⟨i, k, .Held⟩ :: after }
  | full {gate : UploadGate τ K} {before after : List (Flight τ K)} {i : τ} {k : K}
      (hat : gate.flights = before ++ ⟨i, k, .Taken⟩ :: after) (hleft : gate.available = 0) :
      Step gate .other { gate with flights := before ++ ⟨i, k, .Refused⟩ :: after }
  | refuse {gate : UploadGate τ K} {before after : List (Flight τ K)} {i : τ} {k : K}
      (hat : gate.flights = before ++ ⟨i, k, .Refused⟩ :: after) :
      Step gate (.busy i .Process)
        { gate with perKey := releaseSlot gate.perKey k, flights := before ++ after }
  | drop {gate : UploadGate τ K} {before after : List (Flight τ K)} {i : τ} {k : K}
      (hat : gate.flights = before ++ ⟨i, k, .Held⟩ :: after) :
      Step gate .other
        { gate with perKey := releaseSlot gate.perKey k, flights := before ++ ⟨i, k, .Dropped⟩ :: after }
  | giveBack {gate : UploadGate τ K} {before after : List (Flight τ K)} {i : τ} {k : K}
      (hat : gate.flights = before ++ ⟨i, k, .Dropped⟩ :: after) :
      Step gate .other { gate with available := gate.available + 1, flights := before ++ after }

/-- A run, and the gates it goes through, its first one left out. -/
inductive Run : UploadGate τ K → List (Event τ × UploadGate τ K) → Prop where
  | done (gate : UploadGate τ K) : Run gate []
  | step {gate gate' : UploadGate τ K} {event : Event τ} {rest : List (Event τ × UploadGate τ K)}
      (h : Step gate event gate') (hrest : Run gate' rest) : Run gate ((event, gate') :: rest)

end

/-! ### What is counted -/

variable {τ K : Type*} [DecidableEq K] {gate gate' : UploadGate τ K} {event : Event τ} {i : τ} {k : K}

/-- The permits of a key. -/
def held (flights : List (Flight τ K)) (k : K) : ℕ := flights.countP fun f => f.key = k ∧ f.stage = .Held

/-- The slots of its account that a key has, by its permits and its calls under way. -/
def slots (flights : List (Flight τ K)) (k : K) : ℕ :=
  flights.countP fun f => f.key = k ∧ (f.stage = .Taken ∨ f.stage = .Refused ∨ f.stage = .Held)

/-- The slots of the pool that are out, by the permits and by those being dropped. -/
def out (flights : List (Flight τ K)) : ℕ := flights.countP fun f => f.stage = .Held ∨ f.stage = .Dropped

/-- A count, as the map has it: no entry for a key with none. -/
def counted (n : ℕ) : Option ℕ := if n = 0 then none else some n

/-- What holds of a gate at every step. -/
structure Counts (gate : UploadGate τ K) : Prop where
  perKey : ∀ k, gate.perKey.get k = counted (slots gate.flights k)
  slots_le : ∀ k, slots gate.flights k ≤ gate.perKeyLimit
  pool : gate.available + out gate.flights = gate.processLimit

/-! ### Steps -/

theorem counts_new (processLimit perKeyLimit : ℕ) : Counts (new processLimit perKeyLimit : UploadGate τ K) :=
  ⟨fun _ => rfl, fun _ => Nat.zero_le _, rfl⟩

theorem getD_counted (n : ℕ) : (counted n).getD 0 = n := by
  unfold counted
  split
  · exact ‹n = 0›.symm
  · rfl

/-- A slot taken counts one more, if the key is under its limit. -/
theorem takeSlot_eq {counts : FMap K ℕ} {limit n : ℕ} (h : counts.get k = counted n) :
    takeSlot counts k limit = if limit ≤ n then none else some (counts.set k (counted (n + 1))) := by
  rw [takeSlot, h, getD_counted]
  rfl

/-- A slot given back counts one less. -/
theorem releaseSlot_eq {counts : FMap K ℕ} {n : ℕ} (h : counts.get k = counted (n + 1)) :
    releaseSlot counts k = counts.set k (counted n) := by
  unfold counted at h
  rw [if_neg (Nat.succ_ne_zero n)] at h
  rw [releaseSlot, h]
  dsimp only
  cases n with
  | zero => rfl
  | succ n => rw [if_pos (by omega), counted, if_neg (Nat.succ_ne_zero n), Nat.add_sub_cancel]

section

variable {before after : List (Flight τ K)} {f : Flight τ K}

@[simp] theorem slots_append_cons : slots (before ++ f :: after) k = slots (before ++ after) k +
    if f.key = k ∧ (f.stage = .Taken ∨ f.stage = .Refused ∨ f.stage = .Held) then 1 else 0 := by
  simp only [slots, List.countP_append, List.countP_cons, decide_eq_true_eq]
  omega

omit [DecidableEq K] in
@[simp] theorem out_append_cons : out (before ++ f :: after) = out (before ++ after) +
    if f.stage = .Held ∨ f.stage = .Dropped then 1 else 0 := by
  simp only [out, List.countP_append, List.countP_cons, decide_eq_true_eq]
  omega

end

/-- One key's count set, the others' as they were. -/
theorem get_set_counted {counts : FMap K ℕ} {m : K → ℕ} {x : ℕ} (y : ℕ)
    (h : ∀ k', counts.get k' = counted (m k' + if k = k' then x else 0)) (k' : K) :
    (counts.set k (counted (m k + y))).get k' = counted (m k' + if k = k' then y else 0) := by
  rw [FMap.get_set]
  by_cases heq : k' = k
  · subst heq
    rw [if_pos rfl, if_pos rfl]
  · rw [if_neg heq, h k', if_neg (Ne.symm heq), if_neg (Ne.symm heq)]

/-- STEP: the counts stay true. -/
theorem Counts.step (h : Counts gate) (hstep : Step gate event gate') : Counts gate' := by
  obtain ⟨hperKey, hle, hpool⟩ := h
  cases hstep with
  | call i k hfresh =>
    refine ⟨fun k' => ?_, fun k' => ?_, ?_⟩
    · simpa [slots] using hperKey k'
    · simpa [slots] using hle k'
    · simpa [out] using hpool
  | @take before after i k counts hat htake =>
    rw [takeSlot_eq (hperKey k)] at htake
    split at htake
    · cases htake
    obtain rfl := Option.some.inj htake
    simp only [hat, slots_append_cons, out_append_cons] at *
    refine ⟨fun k' => ?_, fun k' => ?_, ?_⟩
    · have hset := get_set_counted (x := 0) (k := k) 1 (by simpa using hperKey) k'
      simpa using hset
    · have hk := hle k'
      by_cases heq : k = k'
      · subst heq
        simp at *
        omega
      · simpa [heq] using hk
    · simpa using hpool
  | @account before after i k hat htake =>
    simp only [hat, slots_append_cons, out_append_cons] at *
    exact ⟨by simpa using hperKey, by simpa using hle, by simpa using hpool⟩
  | @acquire before after i k hat hleft =>
    simp only [hat, slots_append_cons, out_append_cons] at *
    refine ⟨by simpa using hperKey, by simpa using hle, ?_⟩
    simp at *
    omega
  | @full before after i k hat hleft =>
    simp only [hat, slots_append_cons, out_append_cons] at *
    exact ⟨by simpa using hperKey, by simpa using hle, by simpa using hpool⟩
  | @refuse before after i k hat =>
    have hk := hperKey k
    simp only [hat, slots_append_cons, out_append_cons] at *
    have hrelease : releaseSlot gate.perKey k = gate.perKey.set k (counted (slots (before ++ after) k + 0)) :=
      releaseSlot_eq (by simpa using hk)
    refine ⟨fun k' => ?_, fun k' => ?_, ?_⟩
    · have hset := get_set_counted (x := 1) (k := k) 0 (by simpa using hperKey) k'
      rw [hrelease, hset]
      simp
    · exact (Nat.le_add_right _ _).trans (hle k')
    · simpa using hpool
  | @drop before after i k hat =>
    have hk := hperKey k
    simp only [hat, slots_append_cons, out_append_cons] at *
    have hrelease : releaseSlot gate.perKey k = gate.perKey.set k (counted (slots (before ++ after) k + 0)) :=
      releaseSlot_eq (by simpa using hk)
    refine ⟨fun k' => ?_, fun k' => ?_, ?_⟩
    · have hset := get_set_counted (x := 1) (k := k) 0 (by simpa using hperKey) k'
      rw [hrelease, hset]
      simp
    · have hk' := hle k'
      simp only [slots_append_cons]
      simp at *
      omega
    · simpa using hpool
  | @giveBack before after i k hat =>
    simp only [hat, slots_append_cons, out_append_cons] at *
    refine ⟨by simpa using hperKey, by simpa using hle, ?_⟩
    simp at *
    omega

theorem Step.limits (h : Step gate event gate') :
    gate'.processLimit = gate.processLimit ∧ gate'.perKeyLimit = gate.perKeyLimit := by
  cases h <;> exact ⟨rfl, rfl⟩

/-- A call refused for its account, at a moment when the account had all its slots. -/
theorem Step.slots_of_account (h : Step gate (.busy i .Account) gate') (hc : Counts gate) :
    ∃ f ∈ gate.flights, f.name = i ∧ f.stage = .Called ∧ slots gate.flights f.key = gate.perKeyLimit := by
  cases h with
  | @account before after i k hat htake =>
    refine ⟨⟨i, k, .Called⟩, by simp [hat], rfl, rfl, ?_⟩
    rw [takeSlot_eq (hc.perKey k)] at htake
    split at htake
    · exact le_antisymm (hc.slots_le k) ‹_›
    · cases htake

/-! ### Runs -/

/-- The gate a run is at before its last part. -/
def reached (gate : UploadGate τ K) (earlier : List (Event τ × UploadGate τ K)) : UploadGate τ K :=
  (earlier.map Prod.snd).getLastD gate

/-- RUN: the counts stay true, and the limits what they are. -/
theorem Run.counts {steps : List (Event τ × UploadGate τ K)} (h : Run gate steps) (hc : Counts gate) :
    ∀ s ∈ steps, Counts s.2 ∧ s.2.processLimit = gate.processLimit ∧ s.2.perKeyLimit = gate.perKeyLimit := by
  induction h with
  | done gate => exact fun s hs => absurd hs List.not_mem_nil
  | step hstep hrest ih =>
    intro s hs
    rcases List.mem_cons.mp hs with rfl | hs
    · exact ⟨hc.step hstep, hstep.limits⟩
    · obtain ⟨hs, hlimits⟩ := ih (hc.step hstep) s hs
      exact ⟨hs, hlimits.1.trans hstep.limits.1, hlimits.2.trans hstep.limits.2⟩

/-- Each step of a run is one. -/
theorem Run.step_at {earlier later : List (Event τ × UploadGate τ K)}
    (h : Run gate (earlier ++ (event, gate') :: later)) : Step (gate.reached earlier) event gate' := by
  induction earlier generalizing gate with
  | nil =>
    cases h with
    | step hstep _ => exact hstep
  | cons s earlier ih =>
    cases h with
    | step _ hrest =>
      have hstep := ih hrest
      rwa [reached, List.map_cons, List.getLastD_cons]

theorem held_le_slots (flights : List (Flight τ K)) (k : K) : held flights k ≤ slots flights k := by
  refine List.countP_mono_left fun f _ hf => ?_
  simp only [decide_eq_true_eq] at hf ⊢
  exact ⟨hf.1, .inr (.inr hf.2)⟩

/-- CORRECT: a gate counts exactly. Permits keep to both limits; with no slot taken the map is empty, and the pool full;
    an entry of the map is of a call or a permit under way; and a call is refused for its account only when calls and
    permits of it have all its slots. -/
theorem counts_exactly {processLimit perKeyLimit : ℕ} {steps : List (Event τ × UploadGate τ K)}
    (hrun : Run (new processLimit perKeyLimit) steps) :
    (∀ s ∈ steps, (∀ k, held s.2.flights k ≤ perKeyLimit) ∧
        (s.2.flights.countP fun f => f.stage = .Held) ≤ processLimit ∧
        ((∀ f ∈ s.2.flights, f.stage = .Called) → s.2.perKey.size = 0 ∧ s.2.available = processLimit) ∧
        ∀ k n, s.2.perKey.get k = some n → ∃ f ∈ s.2.flights, f.key = k ∧ f.stage ≠ .Called ∧ f.stage ≠ .Dropped) ∧
      ∀ earlier later i refused, steps = earlier ++ (.busy i .Account, refused) :: later →
        ∃ f ∈ ((new processLimit perKeyLimit).reached earlier).flights, f.name = i ∧ f.stage = .Called ∧
          slots ((new processLimit perKeyLimit).reached earlier).flights f.key = perKeyLimit := by
  have hcounts := hrun.counts (counts_new processLimit perKeyLimit)
  constructor
  · intro s hs
    obtain ⟨hc, hprocess, hlimit⟩ := hcounts s hs
    refine ⟨fun k => ?_, ?_, fun hcalled => ?_, fun k n hget => ?_⟩
    · exact (held_le_slots _ k).trans ((hc.slots_le k).trans_eq hlimit)
    · have hout : (s.2.flights.countP fun f => f.stage = .Held) ≤ out s.2.flights := by
        refine List.countP_mono_left fun f _ hf => ?_
        simp only [decide_eq_true_eq] at hf ⊢
        exact .inl hf
      have hpool := hc.pool
      rw [hprocess] at hpool
      change _ = processLimit at hpool
      omega
    · have hslots : ∀ k, slots s.2.flights k = 0 := by
        intro k
        refine List.countP_eq_zero.mpr fun f hf => ?_
        simp [hcalled f hf]
      have hout : out s.2.flights = 0 := by
        refine List.countP_eq_zero.mpr fun f hf => ?_
        simp [hcalled f hf]
      refine ⟨FMap.size_eq_zero.mpr fun k => ?_, ?_⟩
      · rw [hc.perKey, hslots]
        rfl
      · have hpool := hc.pool
        rw [hprocess, hout] at hpool
        exact hpool
    · rw [hc.perKey, counted] at hget
      split at hget
      · cases hget
      · obtain ⟨f, hf, hslot⟩ := List.countP_pos_iff.mp (Nat.pos_of_ne_zero ‹_›)
        simp only [decide_eq_true_eq] at hslot
        refine ⟨f, hf, hslot.1, ?_, ?_⟩
        · intro hstage
          simp [hstage] at hslot
        · intro hstage
          simp [hstage] at hslot
  · rintro earlier later i refused rfl
    have hat : Counts ((new processLimit perKeyLimit).reached earlier : UploadGate τ K) ∧
        ((new processLimit perKeyLimit).reached earlier : UploadGate τ K).perKeyLimit = perKeyLimit := by
      rcases List.eq_nil_or_concat earlier with rfl | ⟨before, s, rfl⟩
      · exact ⟨counts_new _ _, rfl⟩
      · obtain ⟨hc, -, hlimit⟩ := hcounts s (by simp)
        rw [reached, List.concat_eq_append, List.map_append, List.map_singleton, List.getLastD_concat]
        exact ⟨hc, hlimit⟩
    obtain ⟨f, hf, hname, hstage, hslots⟩ := hrun.step_at.slots_of_account hat.1
    exact ⟨f, hf, hname, hstage, hslots.trans hat.2⟩

/-! ### A pool that is full -/

/-- A gate of one slot in all and one for each key. -/
def narrow (available : ℕ) (perKey : FMap ℕ ℕ) (flights : List (Flight ℕ ℕ)) : UploadGate ℕ ℕ :=
  ⟨1, 1, available, perKey, flights⟩

/-- The pool is key 0's. The first call of key 1 has its account's slot, not given back yet; the second is refused. -/
def crowded : List (Event ℕ × UploadGate ℕ ℕ) :=
  let zero : FMap ℕ ℕ := FMap.empty.set 0 (some 1)
  let both := zero.set 1 (some 1)
  [(.call 0, narrow 1 .empty [⟨0, 0, .Called⟩]),
    (.other, narrow 1 zero [⟨0, 0, .Taken⟩]),
    (.other, narrow 0 zero [⟨0, 0, .Held⟩]),
    (.call 1, narrow 0 zero [⟨1, 1, .Called⟩, ⟨0, 0, .Held⟩]),
    (.other, narrow 0 both [⟨1, 1, .Taken⟩, ⟨0, 0, .Held⟩]),
    (.call 2, narrow 0 both [⟨2, 1, .Called⟩, ⟨1, 1, .Taken⟩, ⟨0, 0, .Held⟩]),
    (.busy 2 .Account, narrow 0 both [⟨1, 1, .Taken⟩, ⟨0, 0, .Held⟩])]

theorem run_crowded : Run (new 1 1) crowded := by
  refine .step (.call _ 0 0 (by simp [new])) ?_
  refine .step (@Step.take _ _ _ _ [] [] 0 0 _ rfl rfl) ?_
  refine .step (@Step.acquire _ _ _ _ [] [] 0 0 rfl Nat.one_pos) ?_
  refine .step (.call _ 1 1 (by simp [narrow])) ?_
  refine .step (@Step.take _ _ _ _ [] [⟨0, 0, .Held⟩] 1 1 _ rfl rfl) ?_
  refine .step (.call _ 2 1 (by simp [narrow])) ?_
  exact .step (@Step.account _ _ _ _ [] [⟨1, 1, .Taken⟩, ⟨0, 0, .Held⟩] 2 1 rfl rfl) (.done _)

/-- A call refused for its account had, at some moment of it, all the account's slots held by permits. -/
def AccountHeld (perKeyLimit : ℕ) (steps : List (Event ℕ × UploadGate ℕ ℕ)) : Prop :=
  ∀ earlier called during refused later i k,
    steps = earlier ++ (.call i, called) :: during ++ (.busy i .Account, refused) :: later →
      ⟨i, k, .Called⟩ ∈ called.flights →
        ∃ gate ∈ called :: during.map Prod.snd, perKeyLimit ≤ held gate.flights k

/-- No permit of key 1 is ever held, and a call of it is refused for its account. -/
theorem account_refused_unheld : ¬ ∀ steps, Run (new 1 1 : UploadGate ℕ ℕ) steps → AccountHeld 1 steps := by
  intro h
  obtain ⟨gate, hgate, hheld⟩ := h crowded run_crowded (crowded.take 5) _ [] _ [] 2 1 rfl List.mem_cons_self
  obtain rfl := List.mem_singleton.mp hgate
  exact absurd hheld (by decide)

theorem counts_exactly_crowded : (crowded.all fun s => held s.2.flights 0 ≤ 1) = true := by
  rw [List.all_eq_true]
  intro s hs
  exact decide_eq_true (((counts_exactly run_crowded).1 s hs).1 0)

end UploadGate

end Home.HttpGuard
