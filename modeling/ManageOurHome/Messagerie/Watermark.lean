import ManageOurHome.Lib.Atomic
import ManageOurHome.Messagerie.Messages

/-! @src apps/api/src/messagerie/messages.rs, apps/web/src/routes/messagerie/thread.rs | layer:proof | family:messagerie

    What opening the thread marks read, over every interleaving of posts, openings and marks. A message is stamped
    when its transaction begins and seen once it commits: one that commits late, stamped before a message already
    shown, is never counted unread. One stamped after every message shown is, until it is shown.

        X stamped 10:00:00 ─ Y stamped 10:00:02, seen ─ opened: Y shown, read to 10:00:02 ─ X seen: counted read -/

namespace Home.Messagerie

open Atomic

variable {U I : Type}

/-! ### Histories -/

/-- The thread opened: who by, what was there to see, what was rendered, and whether the window was live. -/
structure Opening (U I : Type) where
  reader : U
  visible : List (Message U I)
  rendered : List (Message U I)
  live : Bool

/-- The clock, the thread, and every opening so far. -/
structure Family (U I : Type) where
  clock : ℤ
  thread : Thread U I
  openings : List (Opening U I)

/-- Where a request is: a post begun, a page rendered, its mark begun. -/
inductive Pc (U I : Type) where
  | idle
  | posting (m : Message U I)
  | rendered (reader : U) (upTo : ℤ)
  | marking (reader : U) (upTo now : ℤ)

/-- No other message has this id. -/
def Unused (thread : Thread U I) (m : Message U I) : Prop := ∀ x ∈ thread.messages, x.id ≠ m.id

section

variable [DecidableEq U] [LinearOrder I]

/-- The page opened. -/
def page (thread : Thread U I) (reader : U) (limit : Option ℤ) (cursor : Option (ℤ × I)) : MessageList U I :=
  listMessages thread reader ⟨cursor.map (·.1), cursor.map (·.2), limit, false⟩

/-- A transaction or a page may be given up at any time; `timely` says which messages may become visible. -/
inductive Move (timely : Family U I → Message U I → Prop) : Family U I → Pc U I → Family U I → Pc U I → Prop where
  | begin (s : Family U I) (m : Message U I) (h : m.createdAt = s.clock) : Move timely s .idle s (.posting m)
  | commit (s : Family U I) (m : Message U I) (hunused : Unused s.thread m) (h : timely s m) :
      Move timely s (.posting m) { s with thread.messages := m :: s.thread.messages } .idle
  | giveUp (s : Family U I) (pc : Pc U I) : Move timely s pc s .idle
  | openThread (s : Family U I) (reader : U) (limit : Option ℤ) (cursor : Option (ℤ × I)) :
      Move timely s .idle
        { s with openings :=
            ⟨reader, s.thread.messages, (page s.thread reader limit cursor).messages, cursor.isNone⟩ :: s.openings }
        ((readWatermark (page s.thread reader limit cursor) cursor.isNone).elim .idle (.rendered reader))
  | mark (s : Family U I) (reader : U) (upTo : ℤ) : Move timely s (.rendered reader upTo) s (.marking reader upTo s.clock)
  | marked (s : Family U I) (reader : U) (upTo now : ℤ) :
      Move timely s (.marking reader upTo now)
        { s with thread := markMessagesRead s.thread reader (some upTo) now } .idle

/-- Time passes, a message is deleted. -/
inductive Env : Family U I → Family U I → Prop where
  | tick (s : Family U I) (clock : ℤ) (h : s.clock ≤ clock) : Env s { s with clock := clock }
  | delete (s : Family U I) (id : I) :
      Env s { s with thread.messages := s.thread.messages.filter fun m => m.id ≠ id }

def system (timely : Family U I → Message U I → Prop) : System (Family U I) (Pc U I) := ⟨Env, Move timely⟩

end

/-- A message of another becomes visible only if it is stamped after every message shown live to the reader. -/
def Timely (reader : U) (s : Family U I) (m : Message U I) : Prop :=
  m.createdBy ≠ reader → ∀ o ∈ s.openings, o.reader = reader → o.live = true → ∀ x ∈ o.rendered, x.createdAt < m.createdAt

/-! ### The order of the thread -/

/-- Only a live window marks anything read, up to a message it shows. -/
theorem exists_of_readWatermark {list : MessageList U I} {live : Bool} {t : ℤ} (h : readWatermark list live = some t) :
    live = true ∧ ∃ x ∈ list.messages, t ≤ x.createdAt := by
  rw [readWatermark] at h
  split at h
  · exact absurd h (by simp)
  · rename_i hlive
    obtain ⟨x, hx, rfl⟩ := List.mem_map.mp (List.max?_mem h)
    exact ⟨by simpa using hlive, x, hx, le_rfl⟩

theorem filter_take {α : Type} {p : α → Bool} {l : List α} (h : l.Pairwise fun a b => p b = true → p a = true) (n : ℕ) :
    (l.take n).filter p = (l.filter p).take n := by
  induction l generalizing n with
  | nil => simp
  | cons a l ih =>
    obtain ⟨hfirst, hrest⟩ := List.pairwise_cons.mp h
    rcases n with _ | n
    · simp
    · rw [List.take_succ_cons]
      by_cases ha : p a = true
      · rw [List.filter_cons_of_pos ha, List.filter_cons_of_pos ha, List.take_succ_cons, ih hrest]
      · have hnone : ∀ b ∈ l, ¬p b = true := fun b hb hpb => ha (hfirst b hb hpb)
        rw [List.filter_cons_of_neg ha, List.filter_cons_of_neg ha, List.filter_eq_nil_iff.mpr hnone,
          List.filter_eq_nil_iff.mpr fun b hb => hnone b (List.mem_of_mem_take hb), List.take_nil]

/-- One row an id. -/
def Keyed (thread : Thread U I) : Prop := ∀ m ∈ thread.messages, ∀ m' ∈ thread.messages, m.id = m'.id → m = m'

theorem eq_of_place {m m' : Message U I} (h : m.place = m'.place) : m.createdAt = m'.createdAt ∧ m.id = m'.id :=
  Prod.mk.inj (toLex.injective h)

section

variable [LinearOrder I]

/-- The order `newestFirst` sorts by. -/
abbrev Newer (m m' : Message U I) : Prop := m'.place ≤ m.place

instance : DecidableRel (Newer (U := U) (I := I)) := fun m m' => inferInstanceAs (Decidable (m'.place ≤ m.place))

instance : Std.Total (Newer (U := U) (I := I)) := ⟨fun m m' => le_total m'.place m.place⟩

instance : IsTrans (Message U I) Newer := ⟨fun _ _ _ h h' => le_trans h' h⟩

theorem newestFirst_pairwise (l : List (Message U I)) : (newestFirst l).Pairwise Newer :=
  List.pairwise_insertionSort Newer l

theorem mem_newestFirst {l : List (Message U I)} {m : Message U I} : m ∈ newestFirst l ↔ m ∈ l :=
  List.mem_insertionSort Newer

theorem createdAt_le {m m' : Message U I} (h : m.place ≤ m'.place) : m.createdAt ≤ m'.createdAt := by
  rcases Prod.Lex.toLex_le_toLex.mp h with hlt | ⟨heq, -⟩
  · exact le_of_lt hlt
  · exact le_of_eq heq

/-- The rows of a page are sorted before some are left out, or after. -/
theorem filter_newestFirst {thread : Thread U I} (hkeyed : Keyed thread) {l : List (Message U I)}
    (hl : ∀ m ∈ l, m ∈ thread.messages) (p : Message U I → Bool) :
    (newestFirst l).filter p = newestFirst (l.filter p) := by
  refine List.Perm.eq_of_pairwise (fun a b ha hb hab hba => ?_)
    ((newestFirst_pairwise l).filter p) (newestFirst_pairwise _) ?_
  · have ha := hl a (mem_newestFirst.mp (List.mem_of_mem_filter ha))
    have hb := hl b (List.mem_of_mem_filter (mem_newestFirst.mp hb))
    exact hkeyed a ha b hb (eq_of_place (le_antisymm hba hab)).2
  · exact ((List.perm_insertionSort Newer l).filter p).trans (List.perm_insertionSort Newer _).symm

theorem pageLimit_pos (limit : Option ℤ) : 0 < pageLimit limit := by
  have hone : (1 : ℤ) ≤ max 1 (min (limit.getD DEFAULT_PAGE_LIMIT) MAX_PAGE_LIMIT) := le_max_left _ _
  rw [pageLimit]
  omega

end

/-! ### What is unread -/

section

variable [DecidableEq U] {thread : Thread U I} {caller : U} {m : Message U I}

theorem counted_iff : counted thread caller m = true ↔
    m.createdBy ≠ caller ∧ ∀ t, thread.lastReadAt caller = some t → t < m.createdAt := by
  rw [counted, decide_eq_true_eq]
  refine and_congr_right fun _ => ?_
  rcases thread.lastReadAt caller with _ | t
  · exact iff_of_true (WithBot.bot_lt_coe _) fun t h => absurd h (by simp)
  · exact (WithBot.coe_lt_coe).trans ⟨fun h t' heq => Option.some.inj heq ▸ h, fun h => h t rfl⟩

/-- The pastille and the home card count the same messages. -/
theorem totalled_iff : totalled thread caller m = true ↔
    m.createdBy ≠ caller ∧ ∀ t, thread.lastReadAt caller = some t → t < m.createdAt := by
  rw [totalled, decide_eq_true_eq]
  refine and_congr_right fun _ => ?_
  rcases thread.lastReadAt caller with _ | t <;> simp

theorem counted_eq_totalled (thread : Thread U I) (caller : U) : counted thread caller = totalled thread caller :=
  funext fun _ => Bool.eq_iff_iff.mpr (counted_iff.trans totalled_iff.symm)

theorem unreadMessages_eq (l : List (Message U I)) : unreadMessages l (thread.lastReadAt caller) caller =
    l.filter (counted thread caller) := by
  rw [unreadMessages, List.filter_filter]
  refine List.filter_congr fun m _ => Bool.eq_iff_iff.mpr ?_
  rw [counted_iff, Bool.and_eq_true, decide_eq_true_eq, and_comm]
  refine and_congr_right fun _ => ?_
  rcases thread.lastReadAt caller with _ | t <;> simp

variable [LinearOrder I]

/-- The page of what is unread is the newest of what is counted. -/
theorem listMessages_unread (hkeyed : Keyed thread) (limit : Option ℤ) :
    (listMessages thread caller ⟨none, none, limit, true⟩).unreadTotal = some (unreadCount thread caller) ∧
      (listMessages thread caller ⟨none, none, limit, true⟩).messages =
        (newestFirst (thread.messages.filter (counted thread caller))).take (pageLimit limit) := by
  constructor
  · change some (thread.messages.filter (totalled thread caller)).length = _
    rw [unreadCount, counted_eq_totalled]
  · change unreadMessages (List.take _ (List.take _ _)) _ _ = _
    have hothers : (thread.messages.filter fun m => m.before ⟨none, none, limit, true⟩ ∧ (!true ∨ m.createdBy ≠ caller)) =
        thread.messages.filter fun m => m.createdBy ≠ caller := List.filter_congr fun m _ => by simp [Message.before]
    have hmem : ∀ m ∈ thread.messages.filter (fun m => m.createdBy ≠ caller), m ∈ thread.messages := fun m hm =>
      List.mem_of_mem_filter hm
    rw [hothers, List.take_take, min_eq_left (Nat.le_succ _), unreadMessages_eq, filter_take,
      filter_newestFirst hkeyed hmem, List.filter_filter]
    · congr 2
      refine List.filter_congr fun m _ => Bool.eq_iff_iff.mpr ?_
      rw [Bool.and_eq_true, counted_iff, decide_eq_true_eq]
      exact and_iff_left_of_imp And.left
    · -- among the messages of others, the newer are unread if the older are
      refine (newestFirst_pairwise _).imp_of_mem fun {a b} ha _ hnewer hb => ?_
      have ha := List.of_mem_filter (mem_newestFirst.mp ha)
      rw [decide_eq_true_eq] at ha
      rw [counted_iff] at hb ⊢
      exact ⟨ha, fun t ht => (hb.2 t ht).trans_le (createdAt_le hnewer)⟩

/-- A live page shows the newest message there is to see. -/
theorem exists_rendered (limit : Option ℤ) (hm : m ∈ thread.messages) :
    ∃ x ∈ (page thread caller limit none).messages, m.place ≤ x.place := by
  change ∃ x ∈ List.take _ (List.take _ _), _
  have hall : (thread.messages.filter fun m => m.before ⟨none, none, limit, false⟩ ∧ (!false ∨ m.createdBy ≠ caller)) =
      thread.messages := List.filter_eq_self.mpr fun m _ => by simp [Message.before]
  rw [show (⟨Option.map _ none, Option.map _ none, limit, false⟩ : ListMessagesQuery I) = ⟨none, none, limit, false⟩ from rfl,
    hall, List.take_take, min_eq_left (Nat.le_succ _)]
  have hsorted := newestFirst_pairwise thread.messages
  have hm := mem_newestFirst.mpr hm
  generalize newestFirst thread.messages = l at hm hsorted ⊢
  rcases l with _ | ⟨x, l⟩
  · exact absurd hm List.not_mem_nil
  · refine ⟨x, ?_, ?_⟩
    · obtain ⟨n, hn⟩ := Nat.exists_eq_succ_of_ne_zero (pageLimit_pos limit).ne'
      rw [hn, List.take_succ_cons]
      exact List.mem_cons_self
    · rcases List.mem_cons.mp hm with rfl | hm
      · exact le_rfl
      · exact (List.pairwise_cons.mp hsorted).1 m hm

end

/-! ### What a reader has been shown -/

/-- A live window has shown the reader a message no older than `t`. -/
def Shown (reader : U) (s : Family U I) (t : ℤ) : Prop :=
  ∃ o ∈ s.openings, o.reader = reader ∧ o.live = true ∧ ∃ x ∈ o.rendered, t ≤ x.createdAt

theorem Shown.cons {reader : U} {s : Family U I} {t : ℤ} (h : Shown reader s t) (o : Opening U I) :
    Shown reader { s with openings := o :: s.openings } t := by
  obtain ⟨o', ho', hshown⟩ := h
  exact ⟨o', List.mem_cons_of_mem _ ho', hshown⟩

/-- What a request holds to mark read, the reader has been shown. -/
def Waiting (reader : U) (s : Family U I) : Pc U I → Prop
  | .rendered reader' upTo | .marking reader' upTo _ => reader' = reader → Shown reader s upTo
  | _ => True

/-- What holds of the thread for one reader. -/
structure Sound [LinearOrder I] (reader : U) (s : Family U I) : Prop where
  keyed : Keyed s.thread
  marked : ∀ t, s.thread.lastReadAt reader = some t → Shown reader s t
  later : ∀ o ∈ s.openings, o.reader = reader → o.live = true → ∀ m ∈ s.thread.messages, m.createdBy ≠ reader →
    m ∉ o.visible → ∀ x ∈ o.rendered, x.createdAt < m.createdAt
  newest : ∀ o ∈ s.openings, o.live = true → ∀ m ∈ o.visible, ∃ x ∈ o.rendered, m.place ≤ x.place

theorem Keyed.fewer {thread : Thread U I} {messages : List (Message U I)} (h : Keyed thread)
    (hless : ∀ m ∈ messages, m ∈ thread.messages) : Keyed { thread with messages := messages } :=
  fun m hm m' hm' => h m (hless m hm) m' (hless m' hm')

theorem Keyed.cons {thread : Thread U I} {m : Message U I} (h : Keyed thread) (hunused : Unused thread m) :
    Keyed { thread with messages := m :: thread.messages } := by
  intro x hx y hy hid
  rcases List.mem_cons.mp hx with rfl | hold <;> rcases List.mem_cons.mp hy with rfl | hold'
  · rfl
  · exact absurd hid.symm (hunused y hold')
  · exact absurd hid (hunused x hold)
  · exact h x hold y hold' hid

/-- The watermark of the reader after a mark: where it was, or no further than the mark. -/
theorem lastReadAt_markMessagesRead [DecidableEq U] {thread : Thread U I} {reader reader' : U} {upTo now t : ℤ}
    (h : (markMessagesRead thread reader' (some upTo) now).lastReadAt reader = some t) :
    thread.lastReadAt reader = some t ∨ reader' = reader ∧ t ≤ upTo := by
  rw [markMessagesRead] at h
  by_cases heq : reader = reader'
  · subst heq
    simp only [Function.update_self, Option.getD_some, Option.some.injEq] at h
    rcases hbefore : thread.lastReadAt reader with _ | before
    · rw [hbefore] at h
      exact .inr ⟨rfl, h ▸ min_le_left _ _⟩
    · rw [hbefore, Option.elim_some] at h
      rcases le_total before (min upTo now) with hle | hle
      · rw [max_eq_right hle] at h
        exact .inr ⟨rfl, h ▸ min_le_left _ _⟩
      · rw [max_eq_left hle] at h
        exact .inl (congrArg some h)
  · simp only [Function.update_of_ne heq] at h
    exact .inl h

section

variable [DecidableEq U] [LinearOrder I] {reader : U} {s : Family U I}

/-- A page opened shows the newest there is to see. -/
theorem Sound.opened (h : Sound reader s) (reader' : U) (limit : Option ℤ) (cursor : Option (ℤ × I)) :
    Sound reader { s with openings :=
      ⟨reader', s.thread.messages, (page s.thread reader' limit cursor).messages, cursor.isNone⟩ :: s.openings } where
  keyed := h.keyed
  marked t ht := (h.marked t ht).cons _
  later o ho hreader hlive m hm hother hunseen := by
    rcases List.mem_cons.mp ho with rfl | ho
    · exact absurd hm hunseen
    · exact h.later o ho hreader hlive m hm hother hunseen
  newest o ho hlive m hm := by
    rcases List.mem_cons.mp ho with rfl | ho
    · obtain rfl := Option.isNone_iff_eq_none.mp hlive
      exact exists_rendered limit hm
    · exact h.newest o ho hlive m hm

theorem preserved (reader : U) {τ : Type} :
    Preserved (system (I := I) (Timely reader)) (Sound reader) fun (_ : τ) => Waiting reader where
  env s s' hsound henv := by
    cases henv with
    | tick clock h => exact ⟨hsound.keyed, hsound.marked, hsound.later, hsound.newest⟩
    | delete id =>
      exact ⟨hsound.keyed.fewer fun m hm => List.mem_of_mem_filter hm, hsound.marked,
        fun o ho hreader hlive m hm => hsound.later o ho hreader hlive m (List.mem_of_mem_filter hm), hsound.newest⟩
  env_client _ s s' pc _ hwaiting henv := by
    cases henv <;> exact hwaiting
  move _ s pc s' pc' hsound hwaiting hmove := by
    cases hmove with
    | begin m h => exact ⟨hsound, trivial⟩
    | commit m hunused h =>
      refine ⟨⟨hsound.keyed.cons hunused, hsound.marked, fun o ho hreader hlive x hx hother hunseen => ?_,
        hsound.newest⟩, trivial⟩
      rcases List.mem_cons.mp hx with rfl | hx
      · exact h hother o ho hreader hlive
      · exact hsound.later o ho hreader hlive x hx hother hunseen
    | giveUp => exact ⟨hsound, trivial⟩
    | openThread reader' limit cursor =>
      refine ⟨hsound.opened reader' limit cursor, ?_⟩
      rcases hmark : readWatermark (page s.thread reader' limit cursor) cursor.isNone with _ | upTo
      · trivial
      · obtain ⟨hlive, x, hx, hle⟩ := exists_of_readWatermark hmark
        exact fun heq => ⟨_, List.mem_cons_self, heq, hlive, x, hx, hle⟩
    | mark reader' upTo => exact ⟨hsound, hwaiting⟩
    | marked reader' upTo now =>
      refine ⟨⟨hsound.keyed, fun t ht => ?_, hsound.later, hsound.newest⟩, trivial⟩
      rcases lastReadAt_markMessagesRead ht with ht | ⟨heq, hle⟩
      · exact hsound.marked t ht
      · obtain ⟨o, ho, hreader, hlive, x, hx, hle'⟩ := hwaiting heq
        exact ⟨o, ho, hreader, hlive, x, hx, hle.trans hle'⟩
  move_other _ _ s pc s' pc' m _ _ _ hwaiting hmove := by
    cases hmove with
    | openThread reader' limit cursor =>
      cases m with
      | idle | posting => trivial
      | rendered | marking => exact fun heq => (hwaiting heq).cons _
    | begin | commit | giveUp | mark | marked => exact hwaiting

/-- A message not shown to the reader, nor a newer one in its stead, is unread. -/
theorem Sound.counted (h : Sound reader s) {m : Message U I} (hm : m ∈ s.thread.messages) (hother : m.createdBy ≠ reader)
    (hunshown : ∀ o ∈ s.openings, o.reader = reader → m ∈ o.visible → ∀ x ∈ o.rendered, x.place < m.place) :
    counted s.thread reader m = true := by
  refine counted_iff.mpr ⟨hother, fun t ht => ?_⟩
  by_contra hnot
  obtain ⟨o, ho, hreader, hlive, x, hx, hle⟩ := h.marked t ht
  by_cases hseen : m ∈ o.visible
  · obtain ⟨y, hy, hplace⟩ := h.newest o ho hlive m hseen
    exact absurd (hunshown o ho hreader hseen y hy) (not_lt.mpr hplace)
  · exact hnot (hle.trans_lt (h.later o ho hreader hlive m hm hother hseen x hx))

/-! ### Whole histories -/

variable {τ : Type} [DecidableEq τ] {timely : Family U I → Message U I → Prop} {w w' : World (Family U I) (Pc U I) τ}

/-- Nothing under way, and a reader who has never opened the thread. -/
structure Unopened (reader : U) (w : World (Family U I) (Pc U I) τ) : Prop where
  keyed : Keyed w.shared.thread
  unread : w.shared.thread.lastReadAt reader = none
  openings : w.shared.openings = []
  idle : ∀ i, w.client i = .idle

theorem keyed_of_steps (h : Keyed w.shared.thread) (hrun : Steps (system timely) w w') : Keyed w'.shared.thread := by
  refine hrun.related (R := fun s s' : Family U I => Keyed s.thread → Keyed s'.thread) (fun _ => id) (fun _ _ _ h h' hs => h' (h hs))
    (fun s s' henv => ?_) (fun s pc s' pc' hmove => ?_) h
  · cases henv with
    | tick clock h => exact id
    | delete id => exact fun hkeyed => hkeyed.fewer fun m hm => List.mem_of_mem_filter hm
  · cases hmove with
    | commit m hunused h => exact fun hkeyed => hkeyed.cons hunused
    | begin | giveUp | openThread | mark | marked => exact id

omit [LinearOrder I] in
theorem le_markMessagesRead {thread : Thread U I} {caller : U} {t : ℤ} (h : thread.lastReadAt reader = some t)
    (upTo : Option ℤ) (now : ℤ) :
    ∃ t', (markMessagesRead thread caller upTo now).lastReadAt reader = some t' ∧ t ≤ t' := by
  rw [markMessagesRead]
  by_cases heq : reader = caller
  · subst heq
    refine ⟨_, Function.update_self _ _ _, ?_⟩
    rw [h]
    exact le_max_left _ _
  · exact ⟨t, (Function.update_of_ne heq _ _).trans h, le_rfl⟩

/-- A watermark only moves forward. -/
theorem lastReadAt_mono (hrun : Steps (system timely) w w') {t : ℤ} (h : w.shared.thread.lastReadAt reader = some t) :
    ∃ t', w'.shared.thread.lastReadAt reader = some t' ∧ t ≤ t' := by
  refine hrun.related
    (R := fun s s' => ∀ t, s.thread.lastReadAt reader = some t → ∃ t', s'.thread.lastReadAt reader = some t' ∧ t ≤ t')
    (fun _ t h => ⟨t, h, le_rfl⟩) (fun _ _ _ h h' t ht => ?_) (fun s s' henv => ?_) (fun s pc s' pc' hmove => ?_) t h
  · obtain ⟨t', ht', hle⟩ := h t ht
    obtain ⟨t'', ht'', hle'⟩ := h' t' ht'
    exact ⟨t'', ht'', hle.trans hle'⟩
  · cases henv <;> exact fun t h => ⟨t, h, le_rfl⟩
  · cases hmove with
    | marked reader' upTo now => exact fun t h => le_markMessagesRead h (some upTo) now
    | begin | commit | giveUp | openThread | mark => exact fun t h => ⟨t, h, le_rfl⟩

/-- OPENING THE THREAD MARKS READ WHAT IT SHOWS: in every interleaving whose messages become visible stamped after
    every message shown live to the reader, a message not there to see when the thread was opened is unread until
    an opening shows it, or a newer one; and in every interleaving at all, the watermark only moves forward and the
    pastille, the home card and the list agree, the list being the newest of what is counted. -/
theorem shown_or_unread (hstart : Unopened reader w) :
    (∀ w', Steps (system (Timely reader)) w w' → ∀ m ∈ w'.shared.thread.messages, m.createdBy ≠ reader →
      (∀ o ∈ w'.shared.openings, o.reader = reader → m ∈ o.visible → ∀ x ∈ o.rendered, x.place < m.place) →
      counted w'.shared.thread reader m = true ∧ totalled w'.shared.thread reader m = true) ∧
    ∀ w', Steps (system fun _ _ => True) w w' →
      (∀ w'', Steps (system fun _ _ => True) w' w'' → ∀ caller t, w'.shared.thread.lastReadAt caller = some t →
        ∃ t', w''.shared.thread.lastReadAt caller = some t' ∧ t ≤ t') ∧
      ∀ caller limit,
        (listMessages w'.shared.thread caller ⟨none, none, limit, true⟩).unreadTotal =
          some (unreadCount w'.shared.thread caller) ∧
        (listMessages w'.shared.thread caller ⟨none, none, limit, true⟩).messages =
          (newestFirst (w'.shared.thread.messages.filter (counted w'.shared.thread caller))).take (pageLimit limit) := by
  refine ⟨fun w' hrun m hm hother hunshown => ?_, fun w' hrun => ⟨fun w'' hrun' caller t ht =>
    lastReadAt_mono hrun' ht, fun caller limit => listMessages_unread (keyed_of_steps hstart.keyed hrun) limit⟩⟩
  have hsound : Holds (Sound reader) (fun (_ : τ) => Waiting reader) w := by
    refine ⟨⟨hstart.keyed, fun t ht => absurd (hstart.unread.symm.trans ht) (by simp), fun o ho => ?_, fun o ho => ?_⟩,
      fun i => ?_⟩
    · exact absurd (hstart.openings ▸ ho) List.not_mem_nil
    · exact absurd (hstart.openings ▸ ho) List.not_mem_nil
    · rw [hstart.idle i]
      trivial
  have hcounted := ((preserved reader).steps hsound hrun).shared.counted hm hother hunshown
  exact ⟨hcounted, counted_eq_totalled w'.shared.thread reader ▸ hcounted⟩

end

/-! ### A post that takes its time -/

/-- 0 reads, 1 and 2 write; nothing is there yet. -/
def unread (clock : ℤ) : Family ℕ ℕ := ⟨clock, ⟨[], fun _ => none⟩, []⟩

/-- Posted by 1 at ten o'clock. -/
def first : Message ℕ ℕ := ⟨0, 1, 10 * hour⟩

/-- Posted by 2, two seconds later. -/
def second : Message ℕ ℕ := ⟨1, 2, 10 * hour + 2 * Home.second⟩

/-- The second message alone was there when 0 opened the thread, and is read. -/
def opened (clock : ℤ) (messages : List (Message ℕ ℕ)) : Family ℕ ℕ where
  clock := clock
  thread := ⟨messages, Function.update (fun _ => none) 0 (some second.createdAt)⟩
  openings := [⟨0, [second], [second], true⟩]

theorem unopened_unread (clock : ℤ) :
    Unopened 0 (⟨unread clock, two .idle .idle⟩ : World (Family ℕ ℕ) (Pc ℕ ℕ) Bool) where
  keyed m hm := absurd hm List.not_mem_nil
  unread := rfl
  openings := rfl
  idle i := by cases i <;> rfl

section

variable {timely : Family ℕ ℕ → Message ℕ ℕ → Prop} {s s' : Family ℕ ℕ}
  {pc pc' : Pc ℕ ℕ}

theorem step_first (h : Move timely s pc s' pc') (other : Pc ℕ ℕ) :
    Step (system timely) ⟨s, two pc other⟩ ⟨s', two pc' other⟩ := Step.first other h

theorem step_second (h : Move timely s pc s' pc') (other : Pc ℕ ℕ) :
    Step (system timely) ⟨s, two other pc⟩ ⟨s', two other pc'⟩ := Step.second other h

theorem step_tick {clock : ℤ} (h : s.clock ≤ clock) (c : Bool → Pc ℕ ℕ) :
    Step (system timely) ⟨s, c⟩ ⟨{ s with clock := clock }, c⟩ := .env ⟨s, c⟩ _ (.tick s clock h)

/-- The second message is posted, shown and read, wherever the other request is. -/
theorem opened_reached (h : timely (unread second.createdAt) second) (pc : Pc ℕ ℕ) :
    Steps (system timely) ⟨unread second.createdAt, two pc .idle⟩ ⟨opened second.createdAt [second], two pc .idle⟩ := by
  refine .head (step_second (.begin _ second rfl) pc) ?_
  refine .head (step_second (.commit _ second (fun _ hm => absurd hm List.not_mem_nil) h) pc) ?_
  refine .head (step_second (.openThread _ 0 none none) pc) ?_
  refine .head (step_second (.mark _ 0 second.createdAt) pc) ?_
  exact .single (step_second (.marked _ 0 second.createdAt second.createdAt) pc)

end

/-- Posted by 1 once the second message is read, a message is unread. -/
theorem shown_or_unread_late : counted (opened (11 * hour) [⟨0, 1, 11 * hour⟩, second]).thread 0 ⟨0, 1, 11 * hour⟩ = true := by
  have hrun : Steps (system (Timely 0)) ⟨unread second.createdAt, two .idle .idle⟩
      ⟨opened (11 * hour) [⟨0, 1, 11 * hour⟩, second], two .idle .idle⟩ := by
    refine .trans (opened_reached (fun _ _ ho => absurd ho List.not_mem_nil) .idle) ?_
    refine .head (step_tick (by decide) _) (.head (step_first (.begin _ ⟨0, 1, 11 * hour⟩ rfl) .idle) ?_)
    exact .single (step_first (.commit _ _ (by unfold Unused; decide) (by unfold Timely; decide)) .idle)
  refine ((shown_or_unread (unopened_unread second.createdAt)).1 _ hrun ⟨0, 1, 11 * hour⟩ List.mem_cons_self (by decide) ?_).1
  decide

/-- Posted first and seen last, a message is never unread. -/
theorem swallowed : ¬∀ w w' : World (Family ℕ ℕ) (Pc ℕ ℕ) Bool, Unopened 0 w →
    Steps (system fun _ _ => True) w w' → ∀ m ∈ w'.shared.thread.messages, m.createdBy ≠ 0 →
    (∀ o ∈ w'.shared.openings, o.reader = 0 → m ∈ o.visible → ∀ x ∈ o.rendered, x.place < m.place) →
    counted w'.shared.thread 0 m = true ∧ totalled w'.shared.thread 0 m = true := by
  intro h
  have hrun : Steps (system fun _ _ => True) ⟨unread first.createdAt, two .idle .idle⟩
      ⟨opened second.createdAt [first, second], two .idle .idle⟩ := by
    have htick : (unread first.createdAt).clock ≤ second.createdAt := by decide
    refine .head (step_first (.begin _ first rfl) .idle) (.head (step_tick htick _) ?_)
    refine .trans (opened_reached trivial (.posting first)) ?_
    exact .single (step_first (.commit _ _ (by unfold Unused; decide) trivial) .idle)
  have hcounted := (h _ _ (unopened_unread first.createdAt) hrun first List.mem_cons_self (by decide) (by decide)).1
  exact absurd hcounted (by decide)

end Home.Messagerie
