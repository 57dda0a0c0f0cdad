import ManageOurHome.Messagerie.Older
import ManageOurHome.Messagerie.Watermark

/-! @src apps/web/src/routes/messagerie/thread.rs, apps/api/src/messagerie/messages.rs | layer:proof |
    family:messagerie

    The thread read by its links is a walk over the places of its messages: the cursor survives the address, the
    request and the comparison.

        oldest shown  ⇒  before_created_at=…&before_id=…&limit=…  ⇒  limit=…&before_created_at=…&before_id=…  ⇒  rows -/

namespace Home.Messagerie

open Query

variable {U I : Type} {w : Wire I}

/-! ### What is written is read -/

theorem plain_key : Plain "before_created_at".toList ∧ Plain "before_id".toList ∧ Plain "limit".toList := by
  decide +kernel

theorem keys_nodup : ["before_created_at".toList, "before_id".toList, "limit".toList].Nodup := by decide +kernel

theorem keys_ne : "before_id".toList ≠ "before_created_at".toList ∧ "limit".toList ≠ "before_created_at".toList ∧
    "limit".toList ≠ "before_id".toList := by decide +kernel

theorem unread_ne : "limit".toList ≠ "unread".toList ∧ "before_created_at".toList ≠ "unread".toList ∧
    "before_id".toList ≠ "unread".toList := by decide +kernel

/-- The parameters of a link to older messages. -/
theorem parse_olderPageQuery (hw : w.Lawful) {t : ℤ} (ht : Stamp t) (id : I) (limit : Option ℤ) :
    parse w.coding (olderPageQuery w t id limit) =
      [("before_created_at".toList, w.toRfc3339 t), ("before_id".toList, w.uuidText id)] ++
        limit.elim [] fun limit => [("limit".toList, writeI64 (clampLimit (some limit)))] := by
  obtain ⟨hcreated, hid, hlimit⟩ := plain_key
  unfold olderPageQuery
  rw [parse_cons hw.coding hcreated (hw.rfc3339 t ht).1]
  cases limit with
  | none =>
    rw [Option.elim_none, Option.elim_none, List.append_nil, List.append_nil, parse_last hw.coding hid (hw.uuid id).1]
  | some limit =>
    rw [Option.elim_some, Option.elim_some, parse_cons hw.coding hid (hw.uuid id).1,
      parse_last hw.coding hlimit (plain_writeI64 _), List.cons_append, List.cons_append, List.nil_append]

theorem clampLimit_bounds (limit : Option ℤ) : 1 ≤ clampLimit limit ∧ clampLimit limit ≤ 100 := by
  rw [clampLimit, MAX_PAGE_LIMIT]
  omega

theorem clampLimit_clampLimit (limit : Option ℤ) : clampLimit (some (clampLimit limit)) = clampLimit limit := by
  have hbounds := clampLimit_bounds limit
  rw [clampLimit, Option.getD_some, MAX_PAGE_LIMIT]
  omega

theorem readI64_clampLimit (limit : Option ℤ) : readI64 (writeI64 (clampLimit limit)) = some (clampLimit limit) := by
  have hbounds := clampLimit_bounds limit
  exact readI64_writeI64 (by omega) (by omega)

/-- The page reads in its address the cursor and the limit of the link. -/
theorem threadQuery_olderPageQuery (hw : w.Lawful) {t : ℤ} (ht : Stamp t) (id : I) (limit : Option ℤ) :
    threadQuery w (olderPageQuery w t id limit) =
      ⟨some t, some id, limit.map fun limit => clampLimit (some limit)⟩ := by
  have hparsed := parse_olderPageQuery hw ht id limit
  have hnodup : ((parse w.coding (olderPageQuery w t id limit)).map (·.1)).Nodup := by
    rw [hparsed]
    cases limit with
    | none => exact keys_nodup.sublist (by simp)
    | some limit => exact keys_nodup
  obtain ⟨hid, hlimit, hlimit'⟩ := keys_ne
  rw [threadQuery, fromQueryStr_eq hw, firstOccurrences_eq_self hnodup (by simp), hparsed]
  rw [List.cons_append, lenient_head, (hw.rfc3339 t ht).2, lenient_tail hid, lenient_tail hlimit, List.cons_append,
    List.nil_append, lenient_head, (hw.uuid id).2, lenient_tail hlimit']
  cases limit with
  | none => rw [Option.elim_none, lenient_nil, Option.map_none]
  | some limit => rw [Option.elim_some, lenient_head, readI64_clampLimit, Option.map_some]

/-- The parameters of a request for a page. -/
theorem parse_messagesQuery (hw : w.Lawful) (limit : ℤ) (cursor : Option (ℤ × I)) (hc : ∀ c ∈ cursor, Stamp c.1) :
    parse w.coding (messagesQuery w limit cursor) =
      ("limit".toList, writeI64 limit) :: cursor.elim [] fun c =>
        [("before_created_at".toList, w.toRfc3339 c.1), ("before_id".toList, w.uuidText c.2)] := by
  obtain ⟨hcreated, hid, hlimit⟩ := plain_key
  rw [messagesQuery]
  cases cursor with
  | none => rw [Option.elim_none, Option.elim_none, List.append_nil, parse_last hw.coding hlimit (plain_writeI64 _)]
  | some c =>
    rw [Option.elim_some, Option.elim_some, parse_cons hw.coding hlimit (plain_writeI64 _),
      parse_cons hw.coding hcreated (hw.rfc3339 _ (hc c rfl)).1, parse_last hw.coding hid (hw.uuid _).1]

/-- The API reads in the request what the page asks. -/
theorem listMessagesQuery_messagesQuery (hw : w.Lawful) (limit : Option ℤ) (cursor : Option (ℤ × I))
    (hc : ∀ c ∈ cursor, Stamp c.1) :
    listMessagesQuery w (messagesQuery w (clampLimit limit) cursor) =
      some ⟨cursor.map (·.1), cursor.map (·.2), some (clampLimit limit), false⟩ := by
  obtain ⟨hid, hlimit, hlimit'⟩ := keys_ne
  obtain ⟨hunread, hunread', hunread''⟩ := unread_ne
  rw [listMessagesQuery, parse_messagesQuery hw _ _ hc]
  cases cursor with
  | none =>
    rw [Option.elim_none, strict_tail hlimit, strict_tail hlimit', strict_head (by simp), strict_tail hunread,
      readI64_clampLimit]
    rfl
  | some c =>
    have hone : ∀ p ∈ [("before_id".toList, w.uuidText c.2)], p.1 ≠ "before_created_at".toList := by
      intro p hp
      rw [List.mem_singleton.mp hp]
      exact hid
    have htwo : ∀ p ∈ [("before_created_at".toList, w.toRfc3339 c.1), ("before_id".toList, w.uuidText c.2)],
        p.1 ≠ "limit".toList := by
      intro p hp
      rcases List.mem_cons.mp hp with rfl | hp
      · exact hlimit.symm
      · rw [List.mem_singleton.mp hp]
        exact hlimit'.symm
    rw [Option.elim_some, strict_tail hlimit, strict_head hone, strict_tail hlimit', strict_tail hid.symm,
      strict_head (by simp), strict_head htwo, strict_tail hunread, strict_tail hunread', strict_tail hunread'',
      (hw.rfc3339 _ (hc c rfl)).2, (hw.uuid c.2).2, readI64_clampLimit]
    rfl

/-! ### A page of the walk -/

section

variable [DecidableEq U] [LinearOrder I]

def MessageList.page (list : MessageList U I) : Keyset.Page (Message U I) := ⟨list.messages, list.hasMore⟩

omit [DecidableEq U] in
/-- The two halves of the cursor compare as the pair does. -/
theorem before_eq_past (m : Message U I) (cursor : Option (ℤ × I)) (limit : Option ℤ) (unread : Bool) :
    m.before ⟨cursor.map (·.1), cursor.map (·.2), limit, unread⟩ = Keyset.past Message.place (cursor.map toLex) m := by
  cases cursor with
  | none => rfl
  | some c =>
    rw [Bool.eq_iff_iff, Option.map_some, Option.map_some, Option.map_some, Keyset.past_some, Message.place, Prod.Lex.toLex_lt_toLex]
    simp [Message.before]

theorem page_listMessages (thread : Thread U I) (reader : U) (cursor : Option (ℤ × I)) (limit : Option ℤ) :
    (listMessages thread reader ⟨cursor.map (·.1), cursor.map (·.2), limit, false⟩).page =
      Keyset.page Message.place thread.messages (cursor.map toLex) (pageLimit limit) := by
  have hfilter : (fun m : Message U I => decide (m.before ⟨cursor.map (·.1), cursor.map (·.2), limit, false⟩ = true ∧
      ((!false) = true ∨ m.createdBy ≠ reader))) = Keyset.past Message.place (cursor.map toLex) := by
    funext m
    rw [before_eq_past]
    simp
  rw [listMessages, if_neg Bool.false_ne_true, MessageList.page, hfilter]
  rfl

/-- STEP: the page of an address with that cursor and that limit. -/
theorem page_get (hw : w.Lawful) (thread : Thread U I) (reader : U) (address : Text) (cursor : Option (ℤ × I))
    (hcursor : (threadQuery w address).cursor = cursor) (hc : ∀ c ∈ cursor, Stamp c.1) :
    (thread.get w reader address).page = Keyset.page Message.place thread.messages (cursor.map toLex)
      (clampLimit (threadQuery w address).limit).toNat := by
  rw [Thread.get, hcursor, listMessagesQuery_messagesQuery hw _ _ hc]
  exact (page_listMessages thread reader cursor _).trans
    (congrArg (fun n : ℤ => Keyset.page Message.place thread.messages (cursor.map toLex) n.toNat)
      (clampLimit_clampLimit _))

omit [DecidableEq U] [LinearOrder I] in
/-- The rows of a visit have different places. -/
theorem Snapshot.places (thread : Snapshot U I) : (thread.messages.map Message.place).Nodup := by
  refine List.Nodup.map_on ?_ (List.Nodup.of_map _ thread.unique)
  intro m hm m' hm' h
  exact List.inj_on_of_nodup_map thread.unique hm hm' (eq_of_place h).2

def Snapshot.visit (thread : Snapshot U I) (limit : Option ℤ) : Keyset.Visit (Message.place (U := U) (I := I)) :=
  ⟨thread.messages, (clampLimit limit).toNat, thread.places, by have hbounds := clampLimit_bounds limit; omega⟩

/-- The visits of a walk over the links. -/
def visits (limit : Option ℤ) : List (Snapshot U I × Option ℤ) → List (Keyset.Visit (Message.place (U := U) (I := I)))
  | [] => []
  | (thread, next) :: rest => thread.visit limit :: visits next rest

omit [DecidableEq U] [LinearOrder I] in
/-- The link is the cursor past the last row of the page. -/
theorem olderLink_eq (list : MessageList U I) (limit : Option ℤ) :
    olderLink w list limit = (list.page.next fun m => m).map fun oldest =>
      olderPageQuery w oldest.createdAt oldest.id limit := by
  rw [olderLink, Keyset.Page.next, MessageList.page]
  split
  · rw [List.head?_reverse, Option.map_id']
  · rfl

theorem clampLimit_link (limit : Option ℤ) : clampLimit (limit.map fun limit => clampLimit (some limit)) = clampLimit limit := by
  cases limit with
  | none => rfl
  | some limit => exact clampLimit_clampLimit (some limit)

omit [DecidableEq U] [LinearOrder I] in
/-- The limit a link carries is clamped, which the next page sees no difference of. -/
theorem visits_link (limit : Option ℤ) (seen : List (Snapshot U I × Option ℤ)) :
    visits (limit.map fun limit => clampLimit (some limit)) seen = visits limit seen := by
  cases seen with
  | nil => rfl
  | cons v seen =>
    rw [visits, visits, Snapshot.visit, Snapshot.visit]
    simp only [clampLimit_link]

/-- RUN: the pages of a reader are a walk over the places of the messages. -/
theorem browse_eq_walk (hw : w.Lawful) (reader : U) (seen : List (Snapshot U I × Option ℤ)) (address : Text)
    (cursor : Option (ℤ × I)) (hcursor : (threadQuery w address).cursor = cursor) (hc : ∀ c ∈ cursor, Stamp c.1) :
    (browse w reader address seen).map MessageList.page =
      Keyset.walk Message.place (cursor.map toLex) (visits (threadQuery w address).limit seen) := by
  induction seen generalizing address cursor with
  | nil => rfl
  | cons v seen ih =>
    obtain ⟨thread, limit⟩ := v
    have hpage := page_get hw thread.toThread reader address cursor hcursor hc
    rw [browse, visits, Keyset.walk, List.map_cons, olderLink_eq, hpage, Snapshot.visit]
    congr 1
    cases hnext : (Keyset.page Message.place thread.messages (cursor.map toLex)
        (clampLimit (threadQuery w address).limit).toNat).next fun m => m with
    | none =>
      have hstop := Keyset.next_map Message.place hnext
      rw [hstop]
      rfl
    | some oldest =>
      have hfollow := Keyset.next_map Message.place hnext
      have hstamp : Stamp oldest.createdAt := thread.dated _ (Keyset.mem_of_next hnext)
      have hquery := threadQuery_olderPageQuery hw hstamp oldest.id limit
      have hrest := ih (olderPageQuery w oldest.createdAt oldest.id limit) (some (oldest.createdAt, oldest.id))
        (by rw [hquery]; rfl) (by rintro c ⟨⟩; exact hstamp)
      rw [hquery, visits_link] at hrest
      rw [hfollow]
      exact hrest

/-- The pages of a reader who starts without a cursor are exact. -/
theorem browse_exact (hw : w.Lawful) (reader : U) (seen : List (Snapshot U I × Option ℤ)) (address : Text)
    (hfirst : (threadQuery w address).cursor = none) :
    Keyset.Exact Message.place (visits (threadQuery w address).limit seen)
      ((browse w reader address seen).map MessageList.page) := by
  rw [browse_eq_walk hw reader seen address none hfirst (by simp)]
  exact Keyset.walk_exact _

end

end Home.Messagerie
