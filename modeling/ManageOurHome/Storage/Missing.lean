import ManageOurHome.Storage.InUse

/-! @src apps/api/src/avatar.rs, apps/api/src/agenda/attachments.rs | layer:proof | family:storage

    Whether a committed row can name a missing file. Uploads put the object before they commit, and never leave a row
    without it. Deletions delete it before they commit, so that a failure leaves a row to try again from: one that
    ends in between leaves a row that names a missing file, and nothing else does.

        delete:  lock ─ object deleted ─ ✗        the row stays, its object is gone -/

set_option linter.unusedSectionVars false

namespace Home.Storage

open FiniteMap RowLocks

variable {K U E A : Type} [LinearOrder K] [DecidableEq U] [DecidableEq E] [DecidableEq A] {startsWith : K → K → Bool}
  {limit : Option ℤ} {s s' : Site K U E A} {l l' m : Pc K U E A} {k : K} {own : Option K}

/-- Its deletion was asked for, or no row names it. -/
def Given (s : Site K U E A) (k : K) : Prop := k ∈ s.spent ∧ (s.Named k → k ∈ s.asked)

/-- A file that was put is there, unless a pass asked for its deletion. -/
def Present (s : Site K U E A) (k : K) : Prop := (s.objects.get k).isSome ∨ k ∈ s.reaped

/-- Every file that a row names is there, or its deletion was asked for. -/
def Kept (s : Site K U E A) : Prop := ∀ k, s.Named k → (s.objects.get k).isSome ∨ k ∈ s.asked

/-- What is known of a deletion, and of an upload about to commit. -/
def Charge (s : Site K U E A) : Pc K U E A → Prop
  | .uploaded _ _ k _ | .pictured _ _ k _ => Present s k
  | .replacing k => Given s k
  | .clearing u k | .cleared u k => Given s k ∧ s.name (.inr u) = some k
  | .detaching a k | .detached a k => Given s k ∧ ∀ row, s.name row = some k → row = .inl a
  | .erasing _ keys => ∀ k ∈ keys.take DELETE_OBJECTS_MAX_KEYS, Given s k
  | .reaping _ keys => ∀ k ∈ keys.take DELETE_OBJECTS_MAX_KEYS, k ∈ s.reaped
  | _ => True

/-- What one step may lose: objects whose deletion was asked for, and the deletions of rows that are gone. -/
structure Keeps (s s' : Site K U E A) : Prop where
  objects : ∀ k, (s.objects.get k).isSome → (s'.objects.get k).isSome ∨ k ∈ s.reaped ∨ Given s k
  asked : ∀ k ∈ s.asked, k ∈ s'.asked ∨ ¬s'.Named k
  reaped : ∀ k ∈ s.reaped, k ∈ s'.reaped

theorem Keeps.refl (s : Site K U E A) : Keeps s s where
  objects _ h := Or.inl h
  asked _ h := Or.inl h
  reaped _ h := h

theorem keeps_putObject (k : K) (size : ℤ) (stamp : Option ℤ) : Keeps s (s.putObject k size stamp) :=
  { Keeps.refl s with
    objects := by
      intro k' hk'
      left
      rw [Site.putObject]
      by_cases h : k' = k
      · subst h
        simp
      · simpa [FMap.get_set_ne _ _ h] using hk' }

theorem keeps_deleteObjects {keys : List K} (h : ∀ k ∈ keys, k ∈ s.reaped ∨ Given s k) : Keeps s (s.deleteObjects keys) :=
  { Keeps.refl s with
    objects := by
      intro k hk
      by_cases hmem : k ∈ keys
      · exact Or.inr (h k hmem)
      · left
        obtain ⟨o, ho⟩ := Option.isSome_iff_exists.mp hk
        rw [Site.deleteObjects]
        simp [ho, hmem] }

theorem Keeps.ask (h : Keeps s s') (keys : List K) : Keeps s (s'.ask keys) :=
  { h with
    asked := by
      intro k hk
      rcases h.asked k hk with hk | hk
      · exact Or.inl (mem_ask.mpr (Or.inl hk))
      · exact Or.inr hk }

theorem Keeps.reap (h : Keeps s s') (keys : List K) : Keeps s (s'.reap keys) :=
  { h with reaped := fun k hk => mem_reap.mpr (Or.inl (h.reaped k hk)) }

/-- A commit that takes its row away forgets its deletion. -/
theorem keeps_of_forgotten (hobjects : s'.objects = s.objects) (hreaped : s'.reaped = s.reaped)
    (h : ∀ k ∈ s.asked, k ∈ s'.asked ∨ ¬s'.Named k) : Keeps s s' where
  objects _ hk := Or.inl (hobjects ▸ hk)
  asked := h
  reaped _ hk := hreaped ▸ hk

/-! ### What stays true -/

theorem Given.of_effect (hg : Given s k) (h : Effect limit own s s')
    (hown : ∀ k, own = some k → k ∈ s.issued ∧ k ∉ s.spent) (hk : Keeps s s') : Given s' k := by
  refine ⟨h.spentKept k hg.1, ?_⟩
  rintro ⟨row, hrow⟩
  rcases h.names row k hrow with hold | ⟨hown', -⟩
  · rcases hk.asked k (hg.2 ⟨row, hold⟩) with hasked | hnot
    · exact hasked
    · exact absurd ⟨row, hrow⟩ hnot
  · exact absurd hg.1 (hown k hown').2

theorem Present.of_keeps (hp : Present s k) (hspent : k ∉ s.spent) (hk : Keeps s s') : Present s' k := by
  rcases hp with hp | hp
  · rcases hk.objects k hp with h | h | h
    · exact Or.inl h
    · exact Or.inr (hk.reaped k h)
    · exact absurd h.1 hspent
  · exact Or.inr (hk.reaped k hp)

/-- STEP: a row comes to name a file that is there; what a row names is lost only where that was asked for. -/
theorem Kept.of_effect (hkept : Kept s) (hs : Sound limit s) (h : Effect limit own s s')
    (hown : ∀ k, own = some k → k ∉ s.spent ∧ (s.putAt k ≠ none → Present s k)) (hk : Keeps s s') : Kept s' := by
  rintro k ⟨row, hrow⟩
  have hthere : (s.objects.get k).isSome → ¬Doomed limit s k → ((s'.objects.get k).isSome ∨ k ∈ s'.asked) ∨ Given s k := by
    intro hobject hdoomed
    rcases hk.objects k hobject with h | h | h
    · exact Or.inl (Or.inl h)
    · exact absurd (hs.reaped k h) hdoomed
    · exact Or.inr h
  rcases h.names row k hrow with hold | ⟨hown', -, t, ht, hprompt⟩
  · have hasked : k ∈ s.asked → k ∈ s'.asked := fun h => (hk.asked k h).resolve_right fun hnot => hnot ⟨row, hrow⟩
    rcases hkept k ⟨row, hold⟩ with hobject | hin
    · rcases hthere hobject fun hd => hd.1 ⟨row, hold⟩ with h | hgiven
      · exact h
      · exact Or.inr (hasked (hgiven.2 ⟨row, hold⟩))
    · exact Or.inr (hasked hin)
  · obtain ⟨hspent, hpresent⟩ := hown k hown'
    have hdoomed : ¬Doomed limit s k := by
      rintro ⟨-, t', ht', d, hd, hold⟩
      rw [ht] at ht'
      cases ht'
      have hlate := hprompt d hd
      omega
    rcases hpresent (by simp [ht]) with hobject | hreaped
    · rcases hthere hobject hdoomed with h | hgiven
      · exact h
      · exact absurd hgiven.1 hspent
    · exact absurd (hs.reaped k hreaped) hdoomed

/-! ### What each step keeps -/

theorem not_named_clearAvatar (hs : Sound limit s) {u : U} (h : s.name (.inr u) = some k) : ¬(s.clearAvatar u k).Named k := by
  rintro ⟨row, hrow⟩
  obtain ⟨hold, hne⟩ := name_clearAvatar hrow
  exact hne (hs.once row (.inr u) k hold h)

theorem not_named_deleteAttachment {a : A} (h : ∀ row, s.name row = some k → row = .inl a) :
    ¬(s.deleteAttachment a k).Named k := by
  rintro ⟨row, hrow⟩
  obtain ⟨hold, hne⟩ := name_deleteAttachment hrow
  exact hne (h row hold)

theorem not_named_eraseEvent (hs : Sound limit s) {e : E} (h : k ∈ s.storageKeysFor e) : ¬(s.eraseEvent e).Named k := by
  rintro ⟨row, hrow⟩
  obtain ⟨hold, hevent⟩ := name_eraseEvent hrow
  obtain ⟨a, old, hget, hkey⟩ := FMap.mem_values.mp h
  obtain ⟨hget, he⟩ := FMap.get_filter_eq_some.mp hget
  have hrow' : row = .inl a := hs.once row (.inl a) k hold (by rw [Site.name, hget, Option.map_some, hkey])
  exact hevent a old hrow' hget (by simpa using he)

theorem keeps_abandon (l : Pc K U E A) : Keeps s (s.abandon l) := by
  cases l <;> exact keeps_of_forgotten rfl rfl fun _ h => Or.inl h

theorem keeps_move (hs : Sound limit s) (hc : Charge s l) (h : Move startsWith limit s l s' l') : Keeps s s' := by
  cases h with
  | checkEvent => exact keeps_of_forgotten rfl rfl fun _ h => Or.inl h
  | putAttachment => exact keeps_putObject _ _ _
  | commitAttachment => exact keeps_of_forgotten rfl rfl fun _ h => Or.inl h
  | lockForPhoto => exact keeps_of_forgotten rfl rfl fun _ h => Or.inl h
  | putPhoto => exact keeps_putObject _ _ _
  | commitPhoto u previous k => exact (keeps_of_forgotten rfl rfl fun _ h => Or.inl h : Keeps s (s.replaceAvatar u k)).ask _
  | previousDeleted k => exact keeps_deleteObjects fun k' hk' => Or.inr (List.mem_singleton.mp hk' ▸ hc)
  | lockForNoPhoto => exact (Keeps.refl s).ask _
  | photoDeleted u k => exact keeps_deleteObjects fun k' hk' => Or.inr (List.mem_singleton.mp hk' ▸ hc.1)
  | commitNoPhoto u k =>
    refine keeps_of_forgotten rfl rfl ?_
    intro k' hk'
    by_cases hne : k' = k
    · subst hne
      exact Or.inr (not_named_clearAvatar hs hc.2)
    · exact Or.inl (Finset.mem_erase.mpr ⟨hne, hk'⟩)
  | selectAttachment => exact (Keeps.refl s).ask _
  | attachmentDeleted a k => exact keeps_deleteObjects fun k' hk' => Or.inr (List.mem_singleton.mp hk' ▸ hc.1)
  | commitDetached a k =>
    refine keeps_of_forgotten rfl rfl ?_
    intro k' hk'
    by_cases hne : k' = k
    · subst hne
      exact Or.inr (not_named_deleteAttachment hc.2)
    · exact Or.inl (Finset.mem_erase.mpr ⟨hne, hk'⟩)
  | lockEvent => exact Keeps.refl s
  | collectKeys => exact (Keeps.refl s).ask _
  | chunkDeleted e keys => exact (keeps_deleteObjects fun k hk => Or.inr (hc k hk)).ask _
  | commitErased e =>
    refine keeps_of_forgotten rfl rfl ?_
    intro k hk
    by_cases hmem : k ∈ s.storageKeysFor e
    · exact Or.inr (not_named_eraseEvent hs hmem)
    · exact Or.inl (Finset.mem_sdiff.mpr ⟨hk, hmem⟩)
  | beginPass => exact keeps_of_forgotten rfl rfl fun _ h => Or.inl h
  | listPage => exact Keeps.refl s
  | report => exact Keeps.refl s
  | readKeys => exact (Keeps.refl s).reap _
  | chunkReaped pass keys => exact (keeps_deleteObjects fun k hk => Or.inl (hc k hk)).reap _
  | giveUp => exact keeps_abandon l

theorem keeps_env (hs : Sound limit s) (h : Env s s') : Keeps s s' := by
  cases h with
  | tick => exact keeps_of_forgotten rfl rfl fun _ h => Or.inl h
  | land => exact keeps_putObject _ _ _
  | vanish k h =>
    refine keeps_deleteObjects ?_
    intro k' hk'
    rw [List.mem_singleton.mp hk']
    rcases h with h | h
    · exact Or.inr ⟨hs.asked k h, fun _ => h⟩
    · exact Or.inl h
  | newEvent => exact keeps_of_forgotten rfl rfl fun _ h => Or.inl h
  | newUser => exact keeps_of_forgotten rfl rfl fun _ h => Or.inl h

/-! ### What each request keeps -/

/-- A photo's row is changed only by who holds it. -/
theorem name_of_apart {u : U} (hapart : (system startsWith limit).Apart l m)
    (hheld : (Row.user u, Mode.update) ∈ m.held) (h : Move startsWith limit s l s' l') :
    s'.name (.inr u) = s.name (.inr u) := by
  have hother : ∀ u', (Row.user u', Mode.update) ∈ l.held → u ≠ u' := by
    rintro u' hl rfl
    exact hapart.not_update hl hheld
  cases h with
  | commitPhoto u' previous k =>
    have hne := hother u' (by simp [Pc.held])
    simp only [Site.name, Site.ask, Site.replaceAvatar, FMap.get_set_ne _ _ hne]
  | commitNoPhoto u' k =>
    have hne := hother u' (by simp [Pc.held])
    simp only [Site.name, Site.clearAvatar, FMap.get_set_ne _ _ hne]
  | giveUp => cases l <;> rfl
  | _ => rfl

/-- A name that was given keeps its row. -/
theorem rows_of_effect (hspent : k ∈ s.spent) (h : Effect limit own s s')
    (hown : ∀ k, own = some k → k ∈ s.issued ∧ k ∉ s.spent) {a : A} (hrows : ∀ row, s.name row = some k → row = .inl a) :
    ∀ row, s'.name row = some k → row = .inl a := by
  intro row hrow
  rcases h.names row k hrow with hold | ⟨hown', -⟩
  · exact hrows row hold
  · exact absurd hspent (hown k hown').2

/-- What is known of a request outlasts the steps of the others. -/
theorem charge_of_effect (hl : Local limit s m) (hc : Charge s m) (h : Effect limit own s s')
    (hown : ∀ k, own = some k → k ∈ s.issued ∧ k ∉ s.spent) (hk : Keeps s s')
    (hphoto : ∀ u k, (Row.user u, Mode.update) ∈ m.held → s.name (.inr u) = some k → s'.name (.inr u) = some k) :
    Charge s' m := by
  cases m with
  | uploaded e a k => exact Present.of_keeps hc (Put.notSpent hl) hk
  | pictured u previous k => exact Present.of_keeps hc hl.1.notSpent hk
  | replacing k => exact Given.of_effect hc h hown hk
  | clearing u k => exact ⟨hc.1.of_effect h hown hk, hphoto u k (by simp [Pc.held]) hc.2⟩
  | cleared u k => exact ⟨hc.1.of_effect h hown hk, hphoto u k (by simp [Pc.held]) hc.2⟩
  | detaching a k => exact ⟨hc.1.of_effect h hown hk, rows_of_effect hc.1.1 h hown hc.2⟩
  | detached a k => exact ⟨hc.1.of_effect h hown hk, rows_of_effect hc.1.1 h hown hc.2⟩
  | erasing e keys => exact fun k hmem => (hc k hmem).of_effect h hown hk
  | reaping pass keys => exact fun k hmem => hk.reaped k (hc k hmem)
  | _ => trivial

theorem present_putObject (k : K) (size : ℤ) (stamp : Option ℤ) : Present (s.putObject k size stamp) k :=
  Or.inl (by rw [Site.putObject]; simp)

theorem given_of_asked (hspent : k ∈ s.spent) (hasked : k ∈ s.asked) : Given s k := ⟨hspent, fun _ => hasked⟩

/-- What is known of a request after its own step. -/
theorem charge_move (hs : Sound limit s) (hl : Local limit s l) (hc : Charge s l)
    (h : Move startsWith limit s l s' l') : Charge s' l' := by
  have heffect := effect_move hs hl h
  have hkeeps := keeps_move hs hc h
  have hown : ∀ k, l.pending = some k → k ∈ s.issued ∧ k ∉ s.spent := fun _ hk => hl.pending hk
  cases h with
  | putAttachment e a k size stamp => exact present_putObject k size stamp
  | putPhoto u previous k size stamp => exact present_putObject k size stamp
  | commitPhoto u previous k =>
    cases previous with
    | none => trivial
    | some p =>
      have hspent : p ∈ s.spent := hl.2 p rfl
      exact given_of_asked (heffect.spentKept p hspent) (mem_ask.mpr (Or.inr (by simp)))
  | lockForNoPhoto u k row huser hkey =>
    have hname : s.name (.inr u) = some k := by rw [Site.name, huser, Option.bind_some, hkey]
    exact ⟨given_of_asked (hs.named k ⟨_, hname⟩) (mem_ask.mpr (Or.inr (by simp))), hname⟩
  | photoDeleted u k => exact ⟨hc.1.of_effect heffect hown hkeeps, hc.2⟩
  | selectAttachment a row hrow =>
    have hname : s.name (.inl a) = some row.storageKey := by rw [Site.name, hrow, Option.map_some]
    exact ⟨given_of_asked (hs.named _ ⟨_, hname⟩) (mem_ask.mpr (Or.inr (by simp))), fun row' hrow' =>
      hs.once row' (.inl a) _ hrow' hname⟩
  | attachmentDeleted a k => exact ⟨hc.1.of_effect heffect hown hkeeps, hc.2⟩
  | collectKeys e keys hkeys =>
    intro k hk
    have hnamed := hs.named k (named_of_storageKeysFor ((hkeys k).mp (List.mem_of_mem_take hk)))
    exact given_of_asked hnamed (mem_ask.mpr (Or.inr hk))
  | chunkDeleted e keys =>
    intro k hk
    exact given_of_asked (hl k (List.mem_of_mem_drop (List.mem_of_mem_take hk))) (mem_ask.mpr (Or.inr hk))
  | listPage pass listed token next => cases next <;> trivial
  | readKeys pass objects keys => exact fun k hk => mem_reap.mpr (Or.inr hk)
  | chunkReaped pass keys => exact fun k hk => mem_reap.mpr (Or.inr hk)
  | _ => trivial

/-- What a request has put is there when it commits. -/
theorem charge_pending (hl : Local limit s l) (hc : Charge s l) :
    ∀ k, l.pending = some k → k ∉ s.spent ∧ (s.putAt k ≠ none → Present s k) := by
  intro k hk
  refine ⟨(hl.pending hk).2, ?_⟩
  cases l with
  | uploading e a k' =>
    cases hk
    exact fun hput => absurd (Fresh.notPut hl) hput
  | uploaded e a k' =>
    cases hk
    exact fun _ => hc
  | picturing u previous k' =>
    cases hk
    exact fun hput => absurd hl.1.notPut hput
  | pictured u previous k' =>
    cases hk
    exact fun _ => hc
  | _ => exact absurd hk (by simp [Pc.pending])

theorem kept_preserved : Preserved (system startsWith limit) (fun s : Site K U E A => Sound limit s ∧ Kept s)
    (fun s l => Local limit s l ∧ Charge s l) where
  env s s' hs henv := by
    have heffect : Effect limit none s s' := effect_env henv
    exact ⟨preserved.env _ _ hs.1 henv, hs.2.of_effect hs.1 heffect (by simp) (keeps_env hs.1 henv)⟩
  env_client s s' l hs hl henv := by
    have heffect : Effect limit none s s' := effect_env henv
    refine ⟨preserved.env_client _ _ _ hs.1 hl.1 henv,
      charge_of_effect hl.1 hl.2 heffect (by simp) (keeps_env hs.1 henv) ?_⟩
    intro u k _ hname
    cases henv with
    | newUser u' hnew =>
      have hne : u ≠ u' := by
        rintro rfl
        rw [Site.name, hnew] at hname
        exact absurd hname (by simp)
      simpa only [Site.name, FMap.get_set_ne _ _ hne] using hname
    | _ => exact hname
  move s l s' l' hs hl hmove := by
    have heffect := effect_move hs.1 hl.1 hmove
    obtain ⟨hsound, hlocal⟩ := preserved.move _ _ _ _ hs.1 hl.1 hmove
    exact ⟨⟨hsound, hs.2.of_effect hs.1 heffect (charge_pending hl.1 hl.2) (keeps_move hs.1 hl.2 hmove)⟩, hlocal,
      charge_move hs.1 hl.1 hl.2 hmove⟩
  move_other s l s' l' m hapart hs hl hm hmove := by
    have heffect := effect_move hs.1 hl.1 hmove
    refine ⟨preserved.move_other _ _ _ _ _ hapart hs.1 hl.1 hm.1 hmove,
      charge_of_effect hm.1 hm.2 heffect (fun _ hk => hl.1.pending hk) (keeps_move hs.1 hl.2 hmove) ?_⟩
    intro u k hheld hname
    rwa [name_of_apart hapart hheld hmove]

/-! ### RUN -/

variable {τ : Type} [DecidableEq τ] {w w' : World (Site K U E A) (Pc K U E A) τ}

end Home.Storage
