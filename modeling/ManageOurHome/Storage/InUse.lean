import ManageOurHome.Storage.Effects

/-! @src apps/api/src/attachment_reconcile.rs, apps/api/src/agenda/attachments.rs, apps/api/src/avatar.rs | layer:proof |
    family:storage

    What a reconciliation pass deletes is in nobody's use, then or later, as long as no upload takes longer from its
    put to its commit than the pass waits. And what nobody names is found: a pass begun since, that ends, has deleted
    it. -/

set_option linter.unusedSectionVars false

namespace Home.Storage

open FiniteMap RowLocks

variable {K U E A : Type} [LinearOrder K] [DecidableEq U] [DecidableEq E] [DecidableEq A] {startsWith : K → K → Bool}
  {limit : Option ℤ} {s s' : Site K U E A} {l l' m : Pc K U E A} {k : K} {own : Option K}

/-! ### What stays true -/

theorem Dated.of_effect (h : Effect limit own s s') {lastModified : Option ℤ} (hd : Dated s k lastModified) :
    Dated s' k lastModified := by
  obtain ⟨t, ht, hstamp⟩ := hd
  exact ⟨t, h.putKept k t ht, hstamp⟩

/-- The request that put it would be too late. -/
theorem Doomed.of_effect (h : Effect limit own s s') (hd : Doomed limit s k) : Doomed limit s' k := by
  obtain ⟨hnamed, t, ht, d, hd, hold⟩ := hd
  have hclock := h.clock
  refine ⟨?_, t, h.putKept k t ht, d, hd, by omega⟩
  rintro ⟨row, hrow⟩
  rcases h.names row k hrow with hrow | ⟨-, -, t', ht', hprompt⟩
  · exact hnamed ⟨row, hrow⟩
  · rw [ht] at ht'
    cases ht'
    have hlate := hprompt d hd
    omega

theorem Fresh.of_effect (h : Effect limit own s s') (hne : own ≠ some k) (hf : Fresh s k) : Fresh s' k where
  issued := h.issued k hf.issued
  notPut := by
    by_contra hput
    rcases h.putNew k hput with hput | hown | hastray
    · exact hput hf.notPut
    · exact hne hown
    · exact hf.notAstray hastray
  notAstray := fun hastray => (h.astray k hastray).elim hf.notAstray hne
  notSpent := fun hspent => (h.spentNew k hspent).elim hf.notSpent hne

theorem Put.of_effect (h : Effect limit own s s') (hne : own ≠ some k) {t : ℤ} (hp : Put s k t) : Put s' k t where
  issued := h.issued k hp.issued
  putAt := h.putKept k t hp.putAt
  notSpent := fun hspent => (h.spentNew k hspent).elim hp.notSpent hne

theorem Begun.of_effect (h : Effect limit own s s') {pass : Pass K} (hb : Begun limit s pass) : Begun limit s' pass :=
  ⟨hb.now.trans h.clock, hb.number.trans_le h.passes, hb.window⟩

/-- What is known of a request outlasts the steps of the others. -/
theorem Local.of_effect (h : Effect limit own s s') (hne : ∀ k, m.pending = some k → own ≠ some k)
    (hl : Local limit s m) : Local limit s' m := by
  cases m with
  | uploading e a k => exact Fresh.of_effect h (hne k rfl) hl
  | uploaded e a k => exact Put.of_effect h (hne k rfl) hl
  | picturing u previous k => exact ⟨Fresh.of_effect h (hne k rfl) hl.1, fun p hp => h.spentKept p (hl.2 p hp)⟩
  | pictured u previous k => exact ⟨Put.of_effect h (hne k rfl) hl.1, fun p hp => h.spentKept p (hl.2 p hp)⟩
  | listing pass listed => exact ⟨Begun.of_effect h hl.1, fun o ho => (hl.2 o ho).of_effect h⟩
  | listed pass objects => exact ⟨Begun.of_effect h hl.1, fun o ho => (hl.2 o ho).of_effect h⟩
  | reaping pass keys => exact ⟨Begun.of_effect h hl.1, fun k hk => (hl.2 k hk).of_effect h⟩
  | erasing e keys => exact fun k hk => h.spentKept k (hl k hk)
  | _ => trivial

theorem Sound.of_effect (hs : Sound limit s) (h : Effect limit own s s')
    (hown : ∀ k, own = some k → k ∈ s.issued ∧ k ∉ s.spent) : Sound limit s' where
  once := by
    intro row row' k hrow hrow'
    have hold : ∀ row₁ row₂, s.name row₁ = some k → s'.name row₂ = some k → row₁ = row₂ := by
      intro row₁ row₂ h₁ h₂
      rcases h.names row₂ k h₂ with h₂ | ⟨hown', -⟩
      · exact hs.once row₁ row₂ k h₁ h₂
      · exact absurd (hs.named k ⟨row₁, h₁⟩) (hown k hown').2
    rcases h.once row row' k k hrow hrow' with hrow | hrow' | heq
    · exact hold row row' hrow hrow'
    · exact (hold row' row hrow' hrow).symm
    · exact heq
  named := by
    rintro k ⟨row, hrow⟩
    rcases h.names row k hrow with hrow | ⟨-, hspent, -⟩
    · exact h.spentKept k (hs.named k ⟨row, hrow⟩)
    · exact hspent
  spent := by
    intro k hk
    rcases h.spentNew k hk with hk | hk
    · exact h.issued k (hs.spent k hk)
    · exact h.issued k (hown k hk).1
  put := by
    intro k o ho
    rcases h.objects k o ho with ho | hdated
    · exact (hs.put k o ho).of_effect h
    · exact hdated.1
  putIssued := by
    intro k hk
    rcases h.putNew k hk with hk | hk | hk
    · exact h.issued k (hs.putIssued k hk)
    · exact h.issued k (hown k hk).1
    · exact h.issued k (hs.astray k hk)
  astray := by
    intro k hk
    rcases h.astray k hk with hk | hk
    · exact h.issued k (hs.astray k hk)
    · exact h.issued k (hown k hk).1
  asked := by
    intro k hk
    rcases h.asked k hk with hk | hk
    · exact h.spentKept k (hs.asked k hk)
    · exact h.spentKept k hk
  reaped := by
    intro k hk
    rcases h.reaped k hk with hk | hk
    · exact (hs.reaped k hk).of_effect h
    · exact hk.of_effect h

/-- A pending key is generated and named by no row. -/
theorem Local.pending (hl : Local limit s l) (h : l.pending = some k) : k ∈ s.issued ∧ k ∉ s.spent := by
  cases l with
  | uploading _ _ k' =>
    cases h
    exact ⟨Fresh.issued hl, Fresh.notSpent hl⟩
  | uploaded _ _ k' =>
    cases h
    exact ⟨Put.issued hl, Put.notSpent hl⟩
  | picturing _ _ k' =>
    cases h
    exact ⟨hl.1.issued, hl.1.notSpent⟩
  | pictured _ _ k' =>
    cases h
    exact ⟨hl.1.issued, hl.1.notSpent⟩
  | _ => exact absurd h (by simp [Pc.pending])

theorem held_of_pending (h : l.pending = some k) : (Row.key k, Mode.update) ∈ l.held := by
  cases l with
  | uploading _ _ k' => cases h; simp [Pc.held]
  | uploaded _ _ k' => cases h; simp [Pc.held]
  | picturing _ _ k' => cases h; simp [Pc.held]
  | pictured _ _ k' => cases h; simp [Pc.held]
  | _ => exact absurd h (by simp [Pc.pending])

/-- Two requests never generate the same key. -/
theorem pending_ne (h : (system startsWith limit).Apart l m) : ∀ k, m.pending = some k → l.pending ≠ some k :=
  fun _ hm hl => h.not_update (held_of_pending hl) (held_of_pending hm)

/-! ### STEP -/

theorem fresh_issue (hs : Sound limit s) (h : k ∉ s.issued) : Fresh (s.issue k) k where
  issued := Finset.mem_insert_self _ _
  notPut := by
    by_contra hput
    exact h (hs.putIssued k hput)
  notAstray := fun hastray => h (hs.astray k hastray)
  notSpent := fun hspent => h (hs.spent k hspent)

theorem Fresh.put (h : Fresh s k) (size : ℤ) (stamp : Option ℤ) : Put (s.putObject k size stamp) k s.clock where
  issued := h.issued
  putAt := Function.update_self _ _ _
  notSpent := h.notSpent

/-- What is known of a request after its own step. -/
theorem local_move (hs : Sound limit s) (hl : Local limit s l) (h : Move startsWith limit s l s' l') :
    Local limit s' l' := by
  have heffect := effect_move hs hl h
  cases h with
  | checkEvent e a k size _ hfresh => exact fresh_issue hs hfresh
  | putAttachment e a k size stamp => exact Fresh.put hl size stamp
  | lockForPhoto u k size previous huser hfresh =>
    refine ⟨fresh_issue hs hfresh, ?_⟩
    intro p hp
    refine hs.named p ⟨.inr u, ?_⟩
    rw [Site.name, huser, Option.bind_some]
    exact hp
  | putPhoto u previous k size stamp => exact ⟨Fresh.put hl.1 size stamp, hl.2⟩
  | commitPhoto u previous => cases previous <;> trivial
  | collectKeys e keys hkeys => exact fun k hk => hs.named k (named_of_storageKeysFor ((hkeys k).mp hk))
  | chunkDeleted e keys => exact fun k hk => hl k (List.mem_of_mem_drop hk)
  | beginPass opts _ hwindow => exact ⟨⟨le_rfl, Nat.lt_succ_self _, hwindow⟩, fun o ho => absurd ho List.not_mem_nil⟩
  | listPage pass listed token next page _ hpage =>
    have hdated : ∀ o ∈ listed ++ page, Dated s o.key o.lastModified := by
      intro o ho
      rcases List.mem_append.mp ho with ho | ho
      · exact hl.2 o ho
      · exact hs.put o.key _ ((hpage o).mp ho).1
    cases next with
    | none => exact ⟨hl.1, hdated⟩
    | some t => exact ⟨hl.1, hdated⟩
  | readKeys pass objects keys _ hkeys =>
    exact ⟨Begun.of_effect heffect hl.1, fun k hk => (doomed_of_orphan hl.1 hl.2 (hkeys ▸ hk)).of_effect heffect⟩
  | chunkReaped pass keys =>
    exact ⟨Begun.of_effect heffect hl.1, fun k hk => (hl.2 k (List.mem_of_mem_drop hk)).of_effect heffect⟩
  | _ => trivial

/-- Time, a late call, an event or a user changes what no request is about. -/
theorem effect_env (h : Env s s') : Effect limit none s s' := by
  cases h with
  | tick clock h => exact { Effect.refl none s with clock := h }
  | land k size stamp h hput hstamp => exact effect_putObject hput (Or.inr h) hstamp
  | vanish => exact effect_deleteObjects _
  | newEvent => exact { Effect.refl none s with }
  | newUser u h => exact .of_fewer_names rfl rfl rfl rfl rfl rfl rfl subset_rfl rfl fun _ _ hname => name_newUser h hname

theorem preserved : Preserved (system startsWith limit) (Sound limit) (Local (K := K) (U := U) (E := E) (A := A) limit) where
  env _ _ hs henv := hs.of_effect (effect_env henv) (by simp)
  env_client _ _ _ _ hl henv := hl.of_effect (effect_env henv) (by simp)
  move _ _ _ _ hs hl hmove :=
    ⟨hs.of_effect (effect_move hs hl hmove) fun _ hk => hl.pending hk, local_move hs hl hmove⟩
  move_other _ _ _ _ _ hapart hs hl hm hmove := hm.of_effect (effect_move hs hl hmove) (pending_ne hapart)

/-! ### RUN -/

variable {τ : Type} [DecidableEq τ] {w w' : World (Site K U E A) (Pc K U E A) τ}

/-- No request begun. -/
structure Starts (w : World (Site K U E A) (Pc K U E A) τ) : Prop where
  shared : Start w.shared
  idle : ∀ i, w.client i = .idle

theorem Start.sound (h : Start s) : Sound limit s where
  once := h.once
  named := h.named
  spent := h.spent
  put := h.put
  putIssued := h.putIssued
  astray := h.astray
  asked := by simp [h.asked]
  reaped := by simp [h.reaped]

theorem Starts.holds (h : Starts w) : Holds (system startsWith limit) (Sound limit) (Local limit) w :=
  .of_nil (fun i => by rw [h.idle i]; rfl) h.shared.sound fun i => by rw [h.idle i]; trivial

theorem holds_of_steps (h : Starts w) (hrun : Steps (system startsWith limit) w w') :
    Holds (system startsWith limit) (Sound limit) (Local limit) w' := preserved.steps h.holds hrun

/-- A pass deletes nothing that will ever be named. -/
theorem doomed_preserved (k : K) : Preserved (system startsWith limit) (fun s => Sound limit s ∧ Doomed limit s k)
    (Local (K := K) (U := U) (E := E) (A := A) limit) where
  env s s' hs henv := by
    have heffect : Effect limit none s s' := effect_env henv
    exact ⟨preserved.env _ _ hs.1 henv, hs.2.of_effect heffect⟩
  env_client _ _ _ hs hl henv := preserved.env_client _ _ _ hs.1 hl henv
  move _ _ _ _ hs hl hmove := by
    obtain ⟨hsound, hlocal⟩ := preserved.move _ _ _ _ hs.1 hl hmove
    exact ⟨⟨hsound, hs.2.of_effect (effect_move hs.1 hl hmove)⟩, hlocal⟩
  move_other _ _ _ _ _ hapart hs hl hm hmove := preserved.move_other _ _ _ _ _ hapart hs.1 hl hm hmove

/-! ### What nobody names is found -/

/-- An object no row names and no request will. -/
structure Abandoned (k : K) (m : ℤ) (number : ℕ) (s : Site K U E A) : Prop where
  issued : k ∈ s.issued
  notNamed : ¬s.Named k
  put : s.putAt k ≠ none
  dated : ∀ o, s.objects.get k = some o → o.lastModified = some m
  passes : number ≤ s.passes

/-- The key is in what a pass has listed. -/
def Seen (k : K) (m : ℤ) (objects : List (StoredObject K)) : Prop := ∃ o ∈ objects, o.key = k ∧ o.lastModified = some m

/-- A pass begun since, over the whole bucket. -/
def Due (number : ℕ) (pass : Pass K) : Prop := number ≤ pass.number ∧ pass.opts.scope = none

/-- What a pass begun since knows of the object: gone, listed or ahead, and then among those to delete. -/
def Finds (k : K) (m : ℤ) (number : ℕ) (s : Site K U E A) : Pc K U E A → Prop
  | .listing pass listed token => Due number pass → s.objects.get k = none ∨ Seen k m listed ∨ ∀ t ∈ token, t < k
  | .listed pass objects => Due number pass → s.objects.get k = none ∨ Seen k m objects
  | .reaping pass keys => Due number pass → m + pass.opts.minAgeHours * hour < pass.now →
      s.objects.get k = none ∨ k ∈ keys
  | _ => True

variable {d : ℤ} {number : ℕ}

theorem Abandoned.of_effect (ha : Abandoned k d number s) (h : Effect limit own s s') (hne : own ≠ some k) :
    Abandoned k d number s' where
  issued := h.issued k ha.issued
  notNamed := by
    rintro ⟨row, hrow⟩
    rcases h.names row k hrow with hrow | ⟨hown, -⟩
    · exact ha.notNamed ⟨row, hrow⟩
    · exact hne hown
  put := by
    obtain ⟨t, ht⟩ := Option.ne_none_iff_exists'.mp ha.put
    rw [h.putKept k t ht]
    simp
  dated := by
    intro o ho
    rcases h.objects k o ho with ho | ⟨-, hput⟩
    · exact ha.dated o ho
    · exact absurd hput ha.put
  passes := ha.passes.trans h.passes

/-- Once gone, gone. -/
theorem gone_of_effect (ha : Abandoned k d number s) (h : Effect limit own s s')
    (hgone : s.objects.get k = none) : s'.objects.get k = none := by
  cases ho : s'.objects.get k with
  | none => rfl
  | some o =>
    rcases h.objects k o ho with ho | ⟨-, hput⟩
    · rw [hgone] at ho
      exact absurd ho (by simp)
    · exact absurd hput ha.put

theorem Finds.of_effect (ha : Abandoned k d number s) (h : Effect limit own s s')
    (hf : Finds k d number s m) : Finds k d number s' m := by
  cases m with
  | listing pass listed token => exact fun hdue => (hf hdue).imp_left (gone_of_effect ha h)
  | listed pass objects => exact fun hdue => (hf hdue).imp_left (gone_of_effect ha h)
  | reaping pass keys => exact fun hdue hold => (hf hdue hold).imp_left (gone_of_effect ha h)
  | _ => trivial

/-- A page that reaches the key lists it. -/
theorem seen_of_page (ha : Abandoned k d number s) {pass : Pass K} (hdue : Due number pass) {token next : Option K}
    {page : List (StoredObject K)} (hpage : s.IsPage startsWith pass.opts.scope token next page)
    (hahead : ∀ t ∈ token, t < k) (hreached : ∀ t ∈ next, k ≤ t) : s.objects.get k = none ∨ Seen k d page := by
  cases ho : s.objects.get k with
  | none => exact Or.inl rfl
  | some o =>
    have hscope : ∀ p ∈ pass.opts.scope, startsWith k p = true := by simp [hdue.2]
    exact Or.inr ⟨⟨k, o.sizeBytes, o.lastModified⟩, (hpage _).mpr ⟨ho, hscope, hahead, hreached⟩, rfl, ha.dated o ho⟩

theorem finds_move (ha : Abandoned k d number s) (hl : Local limit s l) (hs : Sound limit s)
    (hf : Finds k d number s l) (h : Move startsWith limit s l s' l') : Finds k d number s' l' := by
  have hgone := gone_of_effect ha (effect_move hs hl h)
  cases h with
  | beginPass => exact fun _ => Or.inr (Or.inr (by simp))
  | listPage pass listed token next page _ hpage =>
    have hmore : Seen k d listed → Seen k d (listed ++ page) := fun ⟨o, ho, hkey⟩ => ⟨o, List.mem_append_left _ ho, hkey⟩
    have hnew : Seen k d page → Seen k d (listed ++ page) := fun ⟨o, ho, hkey⟩ => ⟨o, List.mem_append_right _ ho, hkey⟩
    cases next with
    | none =>
      intro hdue
      rcases hf hdue with hgone | hseen | hahead
      · exact Or.inl hgone
      · exact Or.inr (hmore hseen)
      · exact (seen_of_page ha hdue hpage hahead (by simp)).imp_right hnew
    | some t =>
      intro hdue
      rcases hf hdue with hgone | hseen | hahead
      · exact Or.inl hgone
      · exact Or.inr (Or.inl (hmore hseen))
      · rcases lt_or_ge t k with hlt | hge
        · exact Or.inr (Or.inr fun t' ht' => by cases ht'; exact hlt)
        · have hseen := seen_of_page ha hdue hpage hahead fun t' ht' => by cases ht'; exact hge
          exact hseen.imp_right fun h => Or.inl (hnew h)
  | readKeys pass objects keys _ hkeys =>
    intro hdue hold
    rcases hf hdue with hgone | ⟨o, ho, hkey, hmodified⟩
    · exact Or.inl hgone
    · right
      rw [hkeys]
      refine mem_orphanKeys.mpr ⟨?_, o, ho, hkey, d, hmodified, by omega⟩
      exact fun hknown => ha.notNamed (mem_knownStorageKeys.mp hknown)
  | chunkReaped pass keys =>
    intro hdue hold
    rcases hf hdue hold with hgone' | hmem
    · exact Or.inl (hgone hgone')
    · rw [← List.take_append_drop DELETE_OBJECTS_MAX_KEYS keys] at hmem
      rcases List.mem_append.mp hmem with hmem | hmem
      · left
        rw [Site.reap, Site.deleteObjects]
        dsimp only
        rw [FMap.get_filter]
        cases s.objects.get k with
        | none => rfl
        | some o => simp [hmem]
      · exact Or.inr hmem
  | commitPhoto u previous => cases previous <;> trivial
  | _ => trivial

/-- A request that begins generates another key. -/
theorem pending_move (ha : Abandoned k d number s) (hne : l.pending ≠ some k) (h : Move startsWith limit s l s' l') :
    l'.pending ≠ some k := by
  cases h with
  | checkEvent e a k' size _ hfresh =>
    rintro ⟨⟩
    exact hfresh ha.issued
  | lockForPhoto u k' size previous _ hfresh =>
    rintro ⟨⟩
    exact hfresh ha.issued
  | putAttachment => exact hne
  | putPhoto => exact hne
  | commitPhoto u previous => cases previous <;> simp [Pc.pending]
  | listPage pass listed token next => cases next <;> simp [Pc.pending]
  | _ => simp [Pc.pending]

theorem found_preserved (k : K) (d : ℤ) (number : ℕ) :
    Preserved (system startsWith limit) (fun s : Site K U E A => Sound limit s ∧ Abandoned k d number s)
      (fun s l => Local limit s l ∧ l.pending ≠ some k ∧ Finds k d number s l) where
  env s s' hs henv := by
    have heffect : Effect limit none s s' := effect_env henv
    exact ⟨preserved.env _ _ hs.1 henv, hs.2.of_effect heffect (by simp)⟩
  env_client s s' _ hs hl henv := by
    have heffect : Effect limit none s s' := effect_env henv
    exact ⟨preserved.env_client _ _ _ hs.1 hl.1 henv, hl.2.1, hl.2.2.of_effect hs.2 heffect⟩
  move s l s' l' hs hl hmove := by
    have heffect := effect_move hs.1 hl.1 hmove
    obtain ⟨hsound, hlocal⟩ := preserved.move _ _ _ _ hs.1 hl.1 hmove
    exact ⟨⟨hsound, hs.2.of_effect heffect hl.2.1⟩, hlocal, pending_move hs.2 hl.2.1 hmove,
      finds_move hs.2 hl.1 hs.1 hl.2.2 hmove⟩
  move_other s l s' l' _ hapart hs hl hm hmove := by
    have heffect := effect_move hs.1 hl.1 hmove
    exact ⟨preserved.move_other _ _ _ _ _ hapart hs.1 hl.1 hm.1 hmove, hm.2.1, hm.2.2.of_effect hs.2 heffect⟩

/-- A pass begun before knows nothing of the object. -/
theorem finds_of_earlier (hl : Local limit s l) : Finds k d s.passes s l := by
  cases l with
  | listing pass listed token => exact fun hdue => absurd hdue.1 hl.1.number.not_ge
  | listed pass objects => exact fun hdue => absurd hdue.1 hl.1.number.not_ge
  | reaping pass keys => exact fun hdue => absurd hdue.1 hl.1.number.not_ge
  | _ => trivial

/-- ORPHANS ONLY: no key a pass asks to delete, or is about to, is named then or later; an object no row names and no
    request will is gone once a pass begun since, over the whole bucket and more than its window after the object was
    put, has deleted its last chunk; and every listed object is in one class. -/
theorem orphans_only (h : Starts w) :
    (∀ w₁ w₂ : World (Site K U E A) (Pc K U E A) τ, Steps (system startsWith limit) w w₁ →
      Steps (system startsWith limit) w₁ w₂ → ∀ k,
        (k ∈ w₁.shared.reaped ∨ ∃ i pass keys, w₁.client i = .reaping pass keys ∧ k ∈ keys) → ¬w₂.shared.Named k) ∧
    (∀ w₁ w₂ : World (Site K U E A) (Pc K U E A) τ, Steps (system startsWith limit) w w₁ →
      Steps (system startsWith limit) w₁ w₂ → ∀ (k : K) (o : Stored) (m : ℤ), w₁.shared.objects.get k = some o →
        o.lastModified = some m → ¬w₁.shared.Named k → (∀ j, (w₁.client j).pending ≠ some k) →
          ∀ i pass, w₂.client i = .reaping pass [] → w₁.shared.passes ≤ pass.number → pass.opts.scope = none →
            m + pass.opts.minAgeHours * hour < pass.now → w₂.shared.objects.get k = none) ∧
    ∀ (listing : List (StoredObject K)) (knownKeys : Finset K) (cutoff : ℤ),
      classify listing knownKeys cutoff =
          ⟨ofClass listing knownKeys cutoff .orphan, (ofClass listing knownKeys cutoff .inFlight).length,
            (ofClass listing knownKeys cutoff .unknownAge).map (·.key),
            (ofClass listing knownKeys cutoff .matched).length⟩ ∧
        ∀ object ∈ listing, ∃! c, object ∈ ofClass listing knownKeys cutoff c := by
  refine ⟨?_, ?_, ?_⟩
  · intro w₁ w₂ hrun hrun' k hk
    have hholds := holds_of_steps h hrun
    have hdoomed : Doomed limit w₁.shared k := by
      rcases hk with hk | ⟨i, pass, keys, hi, hk⟩
      · exact hholds.shared.reaped k hk
      · have hlocal := hholds.client i
        rw [hi] at hlocal
        exact hlocal.2 k hk
    exact ((doomed_preserved k).steps ⟨hholds.apart, ⟨hholds.shared, hdoomed⟩, hholds.client⟩ hrun').shared.2.1
  · intro w₁ w₂ hrun hrun' k o m ho hm hnamed hpending i pass hi hnumber hscope hold
    have hholds := holds_of_steps h hrun
    obtain ⟨t, ht, hstamp⟩ := hholds.shared.put k o ho
    have hput : w₁.shared.putAt k ≠ none := by
      rw [ht]
      simp
    have habandoned : Abandoned k m w₁.shared.passes w₁.shared := by
      refine ⟨hholds.shared.putIssued k hput, hnamed, hput, ?_, le_rfl⟩
      intro o' ho'
      rw [ho] at ho'
      cases ho'
      exact hm
    have hfound := (found_preserved k m w₁.shared.passes).steps ⟨hholds.apart, ⟨hholds.shared, habandoned⟩,
      fun j => ⟨hholds.client j, hpending j, finds_of_earlier (hholds.client j)⟩⟩ hrun'
    have hpass := (hfound.client i).2.2
    rw [hi] at hpass
    exact (hpass ⟨hnumber, hscope⟩ hold).resolve_right List.not_mem_nil
  · intro listing knownKeys cutoff
    refine ⟨classify_eq listing knownKeys cutoff, ?_⟩
    intro object hobject
    refine ⟨classOf knownKeys cutoff object, by simp [ofClass, hobject], ?_⟩
    intro c hc
    exact (of_decide_eq_true (List.mem_filter.mp hc).2).symm

/-! ### An object nobody names -/

/-- Two days in, a photo put at the start that no row names, and one that a user has. -/
def leaked : Site ℕ ℕ ℕ ℕ where
  clock := 48 * hour
  objects := (FMap.empty.set 1 (some ⟨900, some 0⟩)).set 2 (some ⟨800, some 0⟩)
  events := ∅
  attachments := FMap.empty
  users := FMap.empty.set 7 (some ⟨false, some 2⟩)
  issued := {1, 2}
  astray := ∅
  putAt := fun k => if k = 1 ∨ k = 2 then some 0 else none
  spent := {2}
  asked := ∅
  reaped := ∅
  passes := 0

theorem leaked_name {row : ℕ ⊕ ℕ} {k : ℕ} (h : leaked.name row = some k) : row = .inr 7 ∧ k = 2 := by
  cases row with
  | inl a => exact absurd h (by simp [Site.name, leaked])
  | inr u =>
    by_cases hu : u = 7
    · subst hu
      simp only [Site.name, leaked, FMap.get_set_self, Option.bind_some, Option.some.injEq] at h
      exact ⟨rfl, h.symm⟩
    · rw [Site.name] at h
      simp only [leaked, FMap.get_set_ne _ _ hu, FMap.get_empty, Option.bind_none] at h
      exact absurd h (by simp)

theorem leaked_starts : Starts (⟨leaked, fun _ => .idle⟩ : World (Site ℕ ℕ ℕ ℕ) (Pc ℕ ℕ ℕ ℕ) Bool) where
  idle _ := rfl
  shared := {
    once := fun row row' k h h' => (leaked_name h).1.trans (leaked_name h').1.symm
    named := by
      rintro k ⟨row, hrow⟩
      rw [(leaked_name hrow).2]
      decide
    spent := by decide
    put := by
      intro k o ho
      simp only [leaked, FMap.get_set, FMap.get_empty] at ho
      split at ho
      · cases ho
        exact ⟨0, by simp [leaked, *], by simp⟩
      · split at ho
        · cases ho
          exact ⟨0, by simp [leaked, *], by simp⟩
        · exact absurd ho (by simp)
    putIssued := by
      intro k hk
      simp only [leaked, ne_eq, ite_eq_right_iff, reduceCtorEq, imp_false, not_not] at hk
      rcases hk with rfl | rfl <;> decide
    astray := by decide
    asked := rfl
    reaped := rfl }

/-- The default pass, applied. -/
def firstPass : Pass ℕ := ⟨⟨true, 24, none⟩, 48 * hour, 0⟩

def leakedListing : List (StoredObject ℕ) := [⟨1, 900, some 0⟩, ⟨2, 800, some 0⟩]

def cleaned : Site ℕ ℕ ℕ ℕ := ((({ leaked with passes := 1 }.reap [1]).deleteObjects [1]).reap [])

theorem cleaned_steps : Steps (system (fun _ _ => true) (some (24 * hour)))
    (⟨leaked, two .idle .idle⟩ : World (Site ℕ ℕ ℕ ℕ) (Pc ℕ ℕ ℕ ℕ) Bool) ⟨cleaned, two (.reaping firstPass []) .idle⟩ := by
  have hfree : ∀ l : Pc ℕ ℕ ℕ ℕ, (system (U := ℕ) (E := ℕ) (A := ℕ) (fun _ _ : ℕ => true) (some (24 * hour))).Apart l .idle :=
    fun l => System.apart_of_nil rfl l
  refine .tail (.tail (.tail (.tail .refl (Step.first (Move.beginPass leaked ⟨true, 24, none⟩ (by decide)
    ⟨24 * hour, rfl, le_rfl⟩) (hfree _))) (Step.first (Move.listPage _ firstPass [] none none leakedListing
    (by simp) ?_) (hfree _))) (Step.first (Move.readKeys _ firstPass leakedListing [1] rfl ?_) (hfree _)))
    (Step.first (Move.chunkReaped _ firstPass [1] (by simp)) (hfree _))
  · rintro ⟨k, size, modified⟩
    constructor
    · intro ho
      rcases List.mem_cons.mp ho with ho | ho
      · cases ho
        exact ⟨rfl, by simp [firstPass], by simp, by simp⟩
      · cases List.mem_singleton.mp ho
        exact ⟨rfl, by simp [firstPass], by simp, by simp⟩
    · rintro ⟨hget, -, -, -⟩
      simp only [leaked, FMap.get_set, FMap.get_empty] at hget
      split at hget
      · rename_i hk
        cases hget
        simp [leakedListing, hk]
      · split at hget
        · rename_i hk
          cases hget
          simp [leakedListing, hk]
        · exact absurd hget (by simp)
  · decide

theorem orphans_only_leaked : cleaned.objects.get 1 = none ∧ ¬cleaned.Named 1 := by
  have hidle : (two .idle .idle : Bool → Pc ℕ ℕ ℕ ℕ) = fun _ => .idle := by
    funext i
    cases i <;> rfl
  have hrun := cleaned_steps
  rw [hidle] at hrun
  constructor
  · refine (orphans_only leaked_starts).2.1 _ _ .refl hrun 1 ⟨900, some 0⟩ 0 rfl rfl ?_ (fun _ => by simp [Pc.pending])
      false firstPass rfl le_rfl rfl (by decide)
    rintro ⟨row, hrow⟩
    exact absurd (leaked_name hrow).2 (by decide)
  · exact (orphans_only leaked_starts).1 _ _ hrun .refl 1 (Or.inl (by decide))

end Home.Storage
