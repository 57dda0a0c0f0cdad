import ManageOurHome.Storage.Bucket

/-! @src apps/api/src/agenda/attachments.rs, apps/api/src/avatar.rs, apps/api/src/attachment_reconcile.rs |
    layer:proof | family:storage

    What one await can do, whoever waits. A key is generated once, put once and named by one row; a row comes to name
    a key only when the request that generated it commits, and in time. What a pass deletes is old and named by no
    row. -/

set_option linter.unusedSectionVars false

namespace Home.Storage

open FiniteMap RowLocks

variable {K U E A : Type} [LinearOrder K] [DecidableEq U] [DecidableEq E] [DecidableEq A] {startsWith : K → K → Bool}
  {limit : Option ℤ} {s s' : Site K U E A} {l l' : Pc K U E A} {k : K} {row : A ⊕ U}

/-! ### What the rows name -/

theorem mem_knownStorageKeys : k ∈ s.knownStorageKeys ↔ s.Named k := by
  rw [Site.knownStorageKeys, Finset.mem_union, FMap.mem_values, Finset.mem_eraseNone, FMap.mem_values]
  constructor
  · rintro (⟨a, row, hrow, rfl⟩ | ⟨u, row, hrow, hkey⟩)
    · exact ⟨.inl a, by simp [Site.name, hrow]⟩
    · exact ⟨.inr u, by simp [Site.name, hrow, hkey]⟩
  · rintro ⟨a | u, hname⟩
    · obtain ⟨row, hrow, hkey⟩ := Option.map_eq_some_iff.mp hname
      exact Or.inl ⟨a, row, hrow, hkey⟩
    · obtain ⟨row, hrow, hkey⟩ := Option.bind_eq_some_iff.mp hname
      exact Or.inr ⟨u, row, hrow, hkey⟩

theorem name_insertAttachment {a : A} {new : Attachment K E} (h : (s.insertAttachment a new).name row = some k) :
    s.name row = some k ∨ row = .inl a ∧ k = new.storageKey := by
  cases row with
  | inr u => exact Or.inl h
  | inl a' =>
    by_cases ha : a' = a
    · subst ha
      rw [Site.name, Site.insertAttachment, FMap.get_set_self, Option.map_some, Option.some.injEq] at h
      exact Or.inr ⟨rfl, h.symm⟩
    · rw [Site.name, Site.insertAttachment, FMap.get_set_ne _ _ ha] at h
      exact Or.inl h

theorem name_replaceAvatar {u : U} {new : K} (h : (s.replaceAvatar u new).name row = some k) :
    s.name row = some k ∨ row = .inr u ∧ k = new := by
  cases row with
  | inl a => exact Or.inl h
  | inr u' =>
    by_cases hu : u' = u
    · subst hu
      rw [Site.name, Site.replaceAvatar, FMap.get_set_self] at h
      cases hrow : s.users.get u' with
      | none =>
        rw [hrow] at h
        exact absurd h (by simp)
      | some user =>
        rw [hrow, Option.map_some, Option.bind_some] at h
        split at h
        · exact Or.inl (by rw [Site.name, hrow, Option.bind_some, h])
        · exact Or.inr ⟨rfl, (Option.some.inj h).symm⟩
    · rw [Site.name, Site.replaceAvatar, FMap.get_set_ne _ _ hu] at h
      exact Or.inl h

theorem name_clearAvatar {u : U} {old : K} (h : (s.clearAvatar u old).name row = some k) :
    s.name row = some k ∧ row ≠ .inr u := by
  cases row with
  | inl a => exact ⟨h, by simp⟩
  | inr u' =>
    by_cases hu : u' = u
    · subst hu
      rw [Site.name, Site.clearAvatar, FMap.get_set_self] at h
      cases hrow : s.users.get u' with
      | none =>
        rw [hrow] at h
        exact absurd h (by simp)
      | some user =>
        rw [hrow, Option.map_some, Option.bind_some] at h
        exact absurd h (by simp)
    · rw [Site.name, Site.clearAvatar, FMap.get_set_ne _ _ hu] at h
      exact ⟨h, by simpa using hu⟩

theorem name_deleteAttachment {a : A} {old : K} (h : (s.deleteAttachment a old).name row = some k) :
    s.name row = some k ∧ row ≠ .inl a := by
  cases row with
  | inr u => exact ⟨h, by simp⟩
  | inl a' =>
    by_cases ha : a' = a
    · subst ha
      rw [Site.name, Site.deleteAttachment, FMap.get_set_self] at h
      exact absurd h (by simp)
    · rw [Site.name, Site.deleteAttachment, FMap.get_set_ne _ _ ha] at h
      exact ⟨h, by simpa using ha⟩

theorem name_eraseEvent {e : E} (h : (s.eraseEvent e).name row = some k) :
    s.name row = some k ∧ ∀ a old, row = .inl a → s.attachments.get a = some old → old.eventId ≠ e := by
  cases row with
  | inr u => exact ⟨h, by simp⟩
  | inl a =>
    obtain ⟨old, hold, hkey⟩ := Option.map_eq_some_iff.mp h
    obtain ⟨hget, hevent⟩ := FMap.get_filter_eq_some.mp hold
    refine ⟨by rw [Site.name, hget, Option.map_some, hkey], ?_⟩
    rintro _ _ ⟨⟩ hget'
    rw [hget] at hget'
    cases hget'
    simpa using hevent

theorem name_newUser {u : U} (hnew : s.users.get u = none)
    (h : ({ s with users := s.users.set u (some ⟨false, none⟩) } : Site K U E A).name row = some k) :
    s.name row = some k := by
  cases row with
  | inl a => exact h
  | inr u' =>
    by_cases hu : u' = u
    · subst hu
      rw [Site.name] at h
      simp at h
    · rw [Site.name] at h
      dsimp only at h
      rwa [FMap.get_set_ne _ _ hu] at h

theorem named_of_storageKeysFor {e : E} (h : k ∈ s.storageKeysFor e) : s.Named k := by
  obtain ⟨a, row, hrow, hkey⟩ := FMap.mem_values.mp h
  exact ⟨.inl a, by rw [Site.name, (FMap.get_filter_eq_some.mp hrow).1, Option.map_some, hkey]⟩

/-! ### What is known of a request -/

/-- Put too long ago for the request that put it to commit, and named by no row. -/
def Doomed (limit : Option ℤ) (s : Site K U E A) (k : K) : Prop :=
  ¬s.Named k ∧ ∃ t, s.putAt k = some t ∧ ∃ d ∈ limit, t + d < s.clock

/-- A date in a listing is that of the put. -/
def Dated (s : Site K U E A) (key : K) (lastModified : Option ℤ) : Prop :=
  ∃ t, s.putAt key = some t ∧ ∀ m ∈ lastModified, m = t

/-- A key generated and not yet put. -/
structure Fresh (s : Site K U E A) (k : K) : Prop where
  issued : k ∈ s.issued
  notPut : s.putAt k = none
  notAstray : k ∉ s.astray
  notSpent : k ∉ s.spent

/-- A key put, of a row not committed. -/
structure Put (s : Site K U E A) (k : K) (t : ℤ) : Prop where
  issued : k ∈ s.issued
  putAt : s.putAt k = some t
  notSpent : k ∉ s.spent

/-- A pass begun, that waits long enough. -/
structure Begun (limit : Option ℤ) (s : Site K U E A) (pass : Pass K) : Prop where
  now : pass.now ≤ s.clock
  number : pass.number < s.passes
  window : Window limit pass.opts.minAgeHours

def Local (limit : Option ℤ) (s : Site K U E A) : Pc K U E A → Prop
  | .uploading _ _ k _ => Fresh s k
  | .uploaded _ _ k t => Put s k t
  | .picturing _ previous k _ => Fresh s k ∧ ∀ p ∈ previous, p ∈ s.spent
  | .pictured _ previous k t => Put s k t ∧ ∀ p ∈ previous, p ∈ s.spent
  | .listing pass listed _ => Begun limit s pass ∧ ∀ o ∈ listed, Dated s o.key o.lastModified
  | .listed pass objects => Begun limit s pass ∧ ∀ o ∈ objects, Dated s o.key o.lastModified
  | .reaping pass keys => Begun limit s pass ∧ ∀ k ∈ keys, Doomed limit s k
  | .erasing _ keys => ∀ k ∈ keys, k ∈ s.spent
  | _ => True

/-- What holds of the site at every point. -/
structure Sound (limit : Option ℤ) (s : Site K U E A) : Prop where
  once : ∀ row row' k, s.name row = some k → s.name row' = some k → row = row'
  named : ∀ k, s.Named k → k ∈ s.spent
  spent : ∀ k ∈ s.spent, k ∈ s.issued
  put : ∀ k o, s.objects.get k = some o → Dated s k o.lastModified
  putIssued : ∀ k, s.putAt k ≠ none → k ∈ s.issued
  astray : ∀ k ∈ s.astray, k ∈ s.issued
  asked : ∀ k ∈ s.asked, k ∈ s.spent
  reaped : ∀ k ∈ s.reaped, Doomed limit s k

/-- What one step can do, taken by who has `own` pending. -/
structure Effect (limit : Option ℤ) (own : Option K) (s s' : Site K U E A) : Prop where
  clock : s.clock ≤ s'.clock
  issued : ∀ k ∈ s.issued, k ∈ s'.issued
  spentKept : ∀ k ∈ s.spent, k ∈ s'.spent
  spentNew : ∀ k ∈ s'.spent, k ∈ s.spent ∨ own = some k
  putKept : ∀ k t, s.putAt k = some t → s'.putAt k = some t
  putNew : ∀ k, s'.putAt k ≠ none → s.putAt k ≠ none ∨ own = some k ∨ k ∈ s.astray
  astray : ∀ k ∈ s'.astray, k ∈ s.astray ∨ own = some k
  names : ∀ row k, s'.name row = some k → s.name row = some k ∨
    own = some k ∧ k ∈ s'.spent ∧ ∃ t, s.putAt k = some t ∧ Prompt limit t s.clock
  once : ∀ row row' k k', s'.name row = some k → s'.name row' = some k' → s.name row = some k ∨ s.name row' = some k' ∨
    row = row'
  objects : ∀ k o, s'.objects.get k = some o → s.objects.get k = some o ∨
    Dated s' k o.lastModified ∧ s.putAt k = none
  asked : ∀ k ∈ s'.asked, k ∈ s.asked ∨ k ∈ s.spent
  reaped : ∀ k ∈ s'.reaped, k ∈ s.reaped ∨ Doomed limit s k
  passes : s.passes ≤ s'.passes

/-- A step that changes nothing of it. -/
theorem Effect.refl (own : Option K) (s : Site K U E A) : Effect limit own s s where
  clock := le_rfl
  issued _ h := h
  spentKept _ h := h
  spentNew _ h := Or.inl h
  putKept _ _ h := h
  putNew _ h := Or.inl h
  astray _ h := Or.inl h
  names _ _ h := Or.inl h
  once _ _ _ _ h _ := Or.inl h
  objects _ _ h := Or.inl h
  asked _ h := Or.inl h
  reaped _ h := Or.inl h
  passes := le_rfl

/-! ### What each operation can do -/

variable {own : Option K}

theorem effect_issue (k : K) : Effect limit own s (s.issue k) :=
  { Effect.refl own s with issued := fun _ h => Finset.mem_insert_of_mem h }

theorem putAt_putObject_of_ne {k' : K} {size : ℤ} {stamp : Option ℤ} (h : k' ≠ k) :
    (s.putObject k size stamp).putAt k' = s.putAt k' := Function.update_of_ne h _ _

theorem effect_putObject {size : ℤ} {stamp : Option ℤ} (hput : s.putAt k = none) (hown : own = some k ∨ k ∈ s.astray)
    (hstamp : ∀ m ∈ stamp, m = s.clock) : Effect limit own s (s.putObject k size stamp) :=
  { Effect.refl own s with
    putKept := by
      intro k' t ht
      have hne : k' ≠ k := by
        rintro rfl
        rw [hput] at ht
        exact absurd ht (by simp)
      rwa [putAt_putObject_of_ne hne]
    putNew := by
      intro k' hk'
      by_cases hne : k' = k
      · exact Or.inr (hne ▸ hown)
      · left
        rwa [putAt_putObject_of_ne hne] at hk'
    objects := by
      intro k' o ho
      by_cases hne : k' = k
      · subst hne
        rw [Site.putObject, FMap.get_set_self] at ho
        cases ho
        exact Or.inr ⟨⟨s.clock, Function.update_self _ _ _, hstamp⟩, hput⟩
      · rw [Site.putObject, FMap.get_set_ne _ _ hne] at ho
        exact Or.inl ho }

theorem effect_deleteObjects (keys : List K) : Effect limit own s (s.deleteObjects keys) :=
  { Effect.refl own s with objects := fun _ _ h => Or.inl (FMap.get_filter_eq_some.mp h).1 }

theorem mem_ask {keys : List K} : k ∈ (s.ask keys).asked ↔ k ∈ s.asked ∨ k ∈ keys := by
  rw [Site.ask, Finset.mem_union, List.mem_toFinset]

theorem mem_reap {keys : List K} : k ∈ (s.reap keys).reaped ↔ k ∈ s.reaped ∨ k ∈ keys := by
  rw [Site.reap, Finset.mem_union, List.mem_toFinset]

theorem Effect.ask (h : Effect limit own s s') {keys : List K} (hkeys : ∀ k ∈ keys, k ∈ s.spent) :
    Effect limit own s (s'.ask keys) :=
  { h with
    asked := by
      intro k hk
      rcases mem_ask.mp hk with hk | hk
      · exact h.asked k hk
      · exact Or.inr (hkeys k hk) }

theorem Effect.reap (h : Effect limit own s s') {keys : List K} (hkeys : ∀ k ∈ keys, Doomed limit s k) :
    Effect limit own s (s'.reap keys) :=
  { h with
    reaped := by
      intro k hk
      rcases mem_reap.mp hk with hk | hk
      · exact h.reaped k hk
      · exact Or.inr (hkeys k hk) }

theorem effect_insertAttachment {a : A} {e : E} {t : ℤ} (hput : s.putAt k = some t) (hprompt : Prompt limit t s.clock) :
    Effect limit (some k) s (s.insertAttachment a ⟨e, k⟩) :=
  { Effect.refl (some k) s with
    spentKept := fun _ h => Finset.mem_insert_of_mem h
    spentNew := by
      intro k' hk'
      rcases Finset.mem_insert.mp hk' with rfl | hk'
      · exact Or.inr rfl
      · exact Or.inl hk'
    names := by
      intro row k' hk'
      rcases name_insertAttachment hk' with hk' | ⟨-, rfl⟩
      · exact Or.inl hk'
      · exact Or.inr ⟨rfl, Finset.mem_insert_self _ _, t, hput, hprompt⟩
    once := by
      intro row row' k' k'' hk hk'
      rcases name_insertAttachment hk with hk | ⟨rfl, -⟩
      · exact Or.inl hk
      rcases name_insertAttachment hk' with hk' | ⟨rfl, -⟩
      · exact Or.inr (Or.inl hk')
      · exact Or.inr (Or.inr rfl) }

theorem effect_replaceAvatar {u : U} {t : ℤ} (hput : s.putAt k = some t) (hprompt : Prompt limit t s.clock) :
    Effect limit (some k) s (s.replaceAvatar u k) :=
  { Effect.refl (some k) s with
    spentKept := fun _ h => Finset.mem_insert_of_mem h
    spentNew := by
      intro k' hk'
      rcases Finset.mem_insert.mp hk' with rfl | hk'
      · exact Or.inr rfl
      · exact Or.inl hk'
    names := by
      intro row k' hk'
      rcases name_replaceAvatar hk' with hk' | ⟨-, rfl⟩
      · exact Or.inl hk'
      · exact Or.inr ⟨rfl, Finset.mem_insert_self _ _, t, hput, hprompt⟩
    once := by
      intro row row' k' k'' hk hk'
      rcases name_replaceAvatar hk with hk | ⟨rfl, -⟩
      · exact Or.inl hk
      rcases name_replaceAvatar hk' with hk' | ⟨rfl, -⟩
      · exact Or.inr (Or.inl hk')
      · exact Or.inr (Or.inr rfl) }

/-- A step that only drops names. -/
theorem Effect.of_fewer_names (hclock : s'.clock = s.clock) (hissued : s'.issued = s.issued) (hspent : s'.spent = s.spent)
    (hput : s'.putAt = s.putAt) (hastray : s'.astray = s.astray) (hobjects : s'.objects = s.objects)
    (hreaped : s'.reaped = s.reaped) (hasked : s'.asked ⊆ s.asked)
    (hpasses : s'.passes = s.passes) (hnames : ∀ row k, s'.name row = some k → s.name row = some k) :
    Effect limit own s s' where
  clock := hclock.ge
  issued _ h := hissued ▸ h
  spentKept _ h := hspent ▸ h
  spentNew _ h := Or.inl (hspent ▸ h)
  putKept _ _ h := hput ▸ h
  putNew _ h := Or.inl (hput ▸ h)
  astray _ h := Or.inl (hastray ▸ h)
  names row k h := Or.inl (hnames row k h)
  once row _ k _ h _ := Or.inl (hnames row k h)
  objects _ _ h := Or.inl (hobjects ▸ h)
  asked _ h := Or.inl (hasked h)
  reaped _ h := Or.inl (hreaped ▸ h)
  passes := hpasses.ge

theorem effect_abandon (l : Pc K U E A) : Effect limit l.pending s (s.abandon l) := by
  have hastray : ∀ k : K, Effect limit (some k) s { s with astray := insert k s.astray } := by
    intro k
    exact { Effect.refl (some k) s with
      astray := by
        intro k' hk'
        rcases Finset.mem_insert.mp hk' with rfl | hk'
        · exact Or.inr rfl
        · exact Or.inl hk' }
  cases l with
  | uploading _ _ k => exact hastray k
  | picturing _ _ k => exact hastray k
  | _ => exact Effect.refl _ s

/-- What a pass that waits long enough deletes is doomed. -/
theorem doomed_of_orphan {pass : Pass K} {objects : List (StoredObject K)} (hbegun : Begun limit s pass)
    (hdated : ∀ o ∈ objects, Dated s o.key o.lastModified)
    (h : k ∈ (classify objects s.knownStorageKeys (pass.now - pass.opts.minAgeHours * hour)).orphanKeys) :
    Doomed limit s k := by
  obtain ⟨hknown, o, ho, rfl, m, hm, hold⟩ := mem_orphanKeys.mp h
  obtain ⟨t, ht, hstamp⟩ := hdated o ho
  obtain ⟨d, hd, hwindow⟩ := hbegun.window
  have hmt : m = t := hstamp m hm
  have hnow := hbegun.now
  exact ⟨fun hnamed => hknown (mem_knownStorageKeys.mpr hnamed), t, ht, d, hd, by omega⟩

/-- STEP: whatever a request or a pass does. -/
theorem effect_move (hs : Sound limit s) (hl : Local limit s l) (h : Move startsWith limit s l s' l') :
    Effect limit l.pending s s' := by
  cases h with
  | checkEvent => exact effect_issue _
  | putAttachment _ _ _ _ _ hstamp => exact effect_putObject hl.notPut (Or.inl rfl) hstamp
  | commitAttachment e a k t _ hprompt => exact effect_insertAttachment hl.putAt hprompt
  | lockForPhoto => exact effect_issue _
  | putPhoto _ _ _ _ _ hstamp => exact effect_putObject hl.1.notPut (Or.inl rfl) hstamp
  | commitPhoto u previous k t hprompt =>
    exact (effect_replaceAvatar hl.1.putAt hprompt).ask fun p hp => hl.2 p (Option.mem_toList.mp hp)
  | previousDeleted => exact effect_deleteObjects _
  | lockForNoPhoto u k row huser hkey =>
    refine (Effect.refl _ s).ask ?_
    intro k' hk'
    rw [List.mem_singleton.mp hk']
    exact hs.named k ⟨.inr u, by rw [Site.name, huser, Option.bind_some, hkey]⟩
  | photoDeleted => exact effect_deleteObjects _
  | commitNoPhoto u k =>
    exact .of_fewer_names rfl rfl rfl rfl rfl rfl rfl (Finset.erase_subset _ _) rfl fun _ _ h => (name_clearAvatar h).1
  | selectAttachment a row hrow =>
    refine (Effect.refl _ s).ask ?_
    intro k' hk'
    rw [List.mem_singleton.mp hk']
    exact hs.named _ ⟨.inl a, by rw [Site.name, hrow, Option.map_some]⟩
  | attachmentDeleted => exact effect_deleteObjects _
  | commitDetached =>
    exact .of_fewer_names rfl rfl rfl rfl rfl rfl rfl (Finset.erase_subset _ _) rfl fun _ _ h => (name_deleteAttachment h).1
  | lockEvent => exact Effect.refl _ s
  | collectKeys e keys hkeys =>
    refine (Effect.refl _ s).ask ?_
    intro k hk
    exact hs.named k (named_of_storageKeysFor ((hkeys k).mp (List.mem_of_mem_take hk)))
  | chunkDeleted e keys =>
    refine (effect_deleteObjects _).ask ?_
    intro k hk
    exact hl k (List.mem_of_mem_drop (List.mem_of_mem_take hk))
  | commitErased =>
    exact .of_fewer_names rfl rfl rfl rfl rfl rfl rfl Finset.sdiff_subset rfl fun _ _ h => (name_eraseEvent h).1
  | beginPass => exact { Effect.refl _ s with passes := Nat.le_succ _ }
  | listPage => exact Effect.refl _ s
  | report => exact Effect.refl _ s
  | readKeys pass objects keys _ hkeys =>
    refine (Effect.refl _ s).reap ?_
    intro k hk
    exact doomed_of_orphan hl.1 hl.2 (hkeys ▸ List.mem_of_mem_take hk)
  | chunkReaped pass keys =>
    refine (effect_deleteObjects _).reap ?_
    intro k hk
    exact hl.2 k (List.mem_of_mem_drop (List.mem_of_mem_take hk))
  | giveUp => exact effect_abandon l

end Home.Storage
