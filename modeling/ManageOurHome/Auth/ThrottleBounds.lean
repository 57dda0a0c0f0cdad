import ManageOurHome.Auth.ThrottleRows

/-! @src apps/api/src/auth/throttle.rs | layer:proof | family:rate-limit

    The table keeps its bounds and evicts fairly. What `make_room` and `admission` can do is said once
    (`makeRoom_spec`, `admission_held`, `admission_refused`, `admission_new`); the invariant of every reachable
    table and the fairness of every eviction are read off those. -/

namespace Home.Throttle

open FiniteMap

variable {A E : Type*} [DecidableEq A] [DecidableEq E]

namespace Entry

theorem evictedBefore_asymm (now : ℤ) (e f : Entry) (h : e.evictedBefore now f) :
    f.evictedBefore now e = false := by
  simp only [evictedBefore, Bool.or_eq_true, Bool.and_eq_true, decide_eq_true_eq, beq_iff_eq] at h
  simp only [evictedBefore, Bool.or_eq_false_iff, Bool.and_eq_false_iff, decide_eq_false_iff_not,
    beq_eq_false_iff_ne]
  omega

theorem evictedBefore_trans (now : ℤ) (e f g : Entry) (hef : f.evictedBefore now e = false)
    (hfg : g.evictedBefore now f = false) : g.evictedBefore now e = false := by
  simp only [evictedBefore, Bool.or_eq_false_iff, Bool.and_eq_false_iff, decide_eq_false_iff_not,
    beq_eq_false_iff_ne] at hef hfg ⊢
  omega

/-- What a pair kept behind `e` looks like: behind an unlocked one, its window started no earlier;
    behind a locked one, it is locked no shorter. -/
theorem evictedBefore_eq_false {now : ℤ} {e f : Entry} (h : f.evictedBefore now e = false) :
    (e.lockedAt now = none → f.lockedAt now = none → e.windowStart ≤ f.windowStart) ∧
    (∀ u, e.lockedAt now = some u → ∃ v, f.lockedAt now = some v ∧ u ≤ v) := by
  simp only [evictedBefore, evictionKey, Bool.or_eq_false_iff, Bool.and_eq_false_iff,
    beq_eq_false_iff_ne] at h
  cases he : e.lockedAt now <;> cases hf : f.lockedAt now <;> simp_all

/-- The entry a new pair starts from: fresh, its first attempt counted. -/
def first (now : ℤ) : Entry := ⟨1, now, none⟩

theorem admission_fresh (now : ℤ) : (fresh now).admission now = (first now, .Allow) := by
  have hstale : (fresh now).isStale now = false := by
    simp [isStale, fresh, lockedAt, since, WINDOW, minute, second]
  simp only [admission, hstale]
  simp [fresh, lockedAt, MAX_FAILURES, first]

end Entry

namespace Table

/-! ### What `make_room` can do -/

/-- `p`, holding `e`, is what `make_room` evicts from the live rows `L`: its address holds the most,
    and no pair of an address holding as many goes before it. -/
structure Victim (L : FMap (A × E) Entry) (now : ℤ) (p : A × E) (e : Entry) : Prop where
  held : L.get p = some e
  most : ∀ ip, (L.under ip).size ≤ (L.under p.1).size
  first : ∀ q f, L.get q = some f → (L.under q.1).size = (L.under p.1).size →
    f.evictedBefore now e = false

theorem size_group_eq_under (byIp : FMap A (FMap E Entry)) (ip : A) :
    (byIp.group ip).size = (byIp.flat.under ip).size :=
  FMap.size_eq_of_get fun f => by rw [FMap.get_group]; rfl

theorem mem_crowded {order : Listing (A × E)} {byIp : FMap A (FMap E Entry)} {c : (A × E) × Entry} :
    c ∈ crowded order byIp ↔
      byIp.flat.get c.1 = some c.2 ∧ (byIp.flat.under c.1.1).size = most byIp := by
  obtain ⟨p, e⟩ := c
  simp only [crowded, List.mem_filterMap, order.mem_list, size_group_eq_under]
  constructor
  · rintro ⟨q, _, hq⟩
    split at hq
    · rename_i hmost
      obtain ⟨f, hf, hp⟩ := Option.map_eq_some_iff.mp hq
      obtain ⟨rfl, rfl⟩ := Prod.mk.inj hp
      exact ⟨hf, hmost⟩
    · exact absurd hq (by simp)
  · rintro ⟨hp, hmost⟩
    exact ⟨p, FMap.mem_keys_of_get hp, by rw [if_pos hmost, hp]; rfl⟩

theorem under_le_most (byIp : FMap A (FMap E Entry)) (ip : A) :
    (byIp.flat.under ip).size ≤ most byIp := by
  rw [← size_group_eq_under]
  by_cases h : ip ∈ byIp.keys
  · exact Finset.le_sup (f := fun ip => (byIp.group ip).size) h
  · rw [FMap.group, FMap.notMem_keys.mp h]
    exact Nat.zero_le _

/-- Some address holds the most, as soon as the table holds a pair. -/
theorem exists_crowded (order : Listing (A × E)) {byIp : FMap A (FMap E Entry)}
    (h : 0 < byIp.flat.size) : crowded order byIp ≠ [] := by
  obtain ⟨p, hp⟩ := Finset.card_pos.mp h
  have hpos : 0 < (byIp.flat.under p.1).size := by
    obtain ⟨e, he⟩ := FMap.mem_keys_iff.mp hp
    exact FMap.size_pos_of_get (k := p.2) (v := e) he
  have hne : byIp.keys.Nonempty := by
    obtain ⟨e, he⟩ := FMap.mem_keys_iff.mp hp
    obtain ⟨g, hg, _⟩ := Option.bind_eq_some_iff.mp he
    exact ⟨p.1, FMap.mem_keys_of_get hg⟩
  obtain ⟨ip, _, hip⟩ := Finset.exists_mem_eq_sup byIp.keys hne fun ip => (byIp.group ip).size
  have hmost : (byIp.flat.under ip).size = most byIp := by
    rw [← size_group_eq_under]; exact hip.symm
  have hpos' : 0 < (byIp.flat.under ip).size := by
    rw [hmost]; exact lt_of_lt_of_le hpos (under_le_most byIp p.1)
  obtain ⟨email, hemail⟩ := Finset.card_pos.mp hpos'
  obtain ⟨e, he⟩ := FMap.mem_keys_iff.mp hemail
  have hflat : byIp.flat.get (ip, email) = some e := he
  have hmem : ((ip, email), e) ∈ crowded order byIp := mem_crowded.mpr ⟨hflat, hmost⟩
  exact List.ne_nil_of_mem hmem

/-- The rows still live at `now`. -/
def liveRows (t : Table A E) (now : ℤ) : FMap (A × E) Entry := t.rows.filter fun _ e => live now e

/-- How a table makes room: it had some; or sweeping its stale pairs gave some; or, full of live
    pairs, it let one victim go. -/
inductive MadeRoom (t : Table A E) (now : ℤ) (t' : Table A E) : Prop where
  | had (hfree : t.total < MAX_TRACKED) (heq : t' = t)
  | swept (hfull : MAX_TRACKED ≤ t.total) (hlive : (t.liveRows now).size < MAX_TRACKED)
      (hrows : t'.rows = t.liveRows now)
  | evicted (p : A × E) (e : Entry) (hlive : MAX_TRACKED ≤ (t.liveRows now).size)
      (hvictim : Victim (t.liveRows now) now p e) (hrows : t'.rows = (t.liveRows now).set p none)

theorem makeRoom_spec (order : Listing (A × E)) {t : Table A E} (h : t.Counted)
    (hle : t.total ≤ MAX_TRACKED) (now : ℤ) :
    (t.makeRoom order now).Counted ∧ (t.makeRoom order now).total < MAX_TRACKED ∧
      MadeRoom t now (t.makeRoom order now) := by
  have hswept := counted_retainLive t.byIp now
  have hrows : (⟨retainLive t.byIp now, ∑ ip ∈ (retainLive t.byIp now).keys,
      ((retainLive t.byIp now).group ip).size⟩ : Table A E).rows = t.liveRows now :=
    flat_retainLive t.byIp now
  unfold makeRoom
  by_cases hfree : t.total < MAX_TRACKED
  · rw [if_pos hfree]
    exact ⟨h, hfree, .had hfree rfl⟩
  · rw [if_neg hfree]
    set s : Table A E := ⟨retainLive t.byIp now, ∑ ip ∈ (retainLive t.byIp now).keys,
      ((retainLive t.byIp now).group ip).size⟩ with hs
    have hsize : s.total = (t.liveRows now).size := by rw [hswept.total_eq, hrows]
    by_cases hlive : s.total < MAX_TRACKED
    · rw [if_pos hlive]
      exact ⟨hswept, hlive, .swept (by omega) (by omega) hrows⟩
    · rw [if_neg hlive]
      have hpos : 0 < (retainLive t.byIp now).flat.size := by
        have : s.total = (retainLive t.byIp now).flat.size := hswept.total_eq
        have : MAX_TRACKED = 10000 := rfl
        omega
      cases hmin : firstMin (fun c d => c.2.evictedBefore now d.2)
          (crowded order (retainLive t.byIp now)) with
      | none => exact absurd (firstMin_eq_none.mp hmin) (exists_crowded order hpos)
      | some c =>
        obtain ⟨p, e⟩ := c
        obtain ⟨hp, hmost⟩ := mem_crowded.mp (firstMin_mem hmin)
        have hbefore := firstMin_le (fun a b => Entry.evictedBefore_asymm now a.2 b.2)
          (fun a b c => Entry.evictedBefore_trans now a.2 b.2 c.2) hmin
        rw [flat_retainLive] at hp hmost
        have hheld : (t.liveRows now).get p = some e := hp
        have hvictim : Victim (t.liveRows now) now p e :=
          { held := hheld
            most := fun ip => by
              have := under_le_most (retainLive t.byIp now) ip
              rw [flat_retainLive] at this
              exact this.trans_eq hmost.symm
            first := fun q f hq hsame => hbefore (q, f) (mem_crowded.mpr (by
              rw [flat_retainLive]; exact ⟨hq, hsame.trans hmost⟩)) }
        have hcounted := counted_remove hswept p.1 p.2
        have hrows' : (s.remove p.1 p.2).rows = (t.liveRows now).set p none := by
          rw [rows_remove, hrows]
        refine ⟨hcounted, ?_, .evicted p e (by omega) hvictim hrows'⟩
        rw [hcounted.total_eq, hrows', FMap.size_set_none hheld]
        have hall := FMap.size_filter_le t.rows fun _ e => live now e
        have htotal := h.total_eq
        have : MAX_TRACKED = 10000 := rfl
        simp only [liveRows] at hall ⊢
        omega

/-! ### What `admission` can do -/

theorem put_put (byIp : FMap A (FMap E Entry)) (ip : A) (email : E) (e f : Entry) :
    put (put byIp ip email e) ip email f = put byIp ip email f := by
  simp only [put, FMap.group, FMap.get_set_self, Option.getD_some, FMap.set_set]

/-- A held pair is decided on its own entry, in place. -/
theorem admission_held (order : Listing (A × E)) {t : Table A E} {ip : A} {email : E} {e : Entry}
    (h : t.get ip email = some e) (now : ℤ) :
    t.admission order ip email now
      = ({ t with byIp := put t.byIp ip email (e.admission now).1 }, (e.admission now).2) := by
  simp [admission, refuseAtShare, insertNew, h]

/-- A new pair is refused when its address, its stale pairs reclaimed, still holds its share. -/
theorem admission_refused (order : Listing (A × E)) {t : Table A E} {ip : A} {email : E} {now : ℤ}
    (h : t.get ip email = none) (hshare : MAX_PAIRS_PER_IP ≤ (t.reclaimAddress ip now).heldBy ip) :
    t.admission order ip email now = (t.reclaimAddress ip now,
      .Locked ((t.reclaimAddress ip now).addressFreesUpIn ip now)) := by
  simp [admission, refuseAtShare, h, hshare]

theorem get_reclaimAddress_of_none {t : Table A E} {ip : A} {email : E} (now : ℤ)
    (h : t.get ip email = none) : (t.reclaimAddress ip now).get ip email = none := by
  rw [← get_rows, rows_reclaimAddress, FMap.get_filter, get_rows, h]
  rfl

/-- A new pair within the share is inserted with its first attempt counted, once there is room. -/
theorem admission_new (order : Listing (A × E)) {t : Table A E} {ip : A} {email : E} {now : ℤ}
    (h : t.get ip email = none)
    (hshare : (t.reclaimAddress ip now).heldBy ip < MAX_PAIRS_PER_IP) :
    t.admission order ip email now =
      ({ byIp := put ((t.reclaimAddress ip now).makeRoom order now).byIp ip email (Entry.first now)
         total := ((t.reclaimAddress ip now).makeRoom order now).total + 1 }, .Allow) := by
  have hnone := get_reclaimAddress_of_none now h
  have hget : ∀ (byIp : FMap A (FMap E Entry)) n,
      (⟨put byIp ip email (Entry.fresh now), n⟩ : Table A E).get ip email
        = some (Entry.fresh now) := by
    intro byIp n
    rw [get, put, FMap.get_set_self, Option.bind_some, FMap.get_set_self]
  simp [admission, refuseAtShare, insertNew, h, hnone, hget, not_le.mpr hshare, Entry.admission_fresh,
    put_put]

/-! ### The invariant -/

/-- What holds of every reachable table. -/
structure Inv (t : Table A E) : Prop where
  total_eq : t.total = ∑ ip ∈ t.byIp.keys, t.heldBy ip
  no_empty : ∀ ip pairs, t.byIp.get ip = some pairs → 0 < pairs.size
  share : ∀ ip, t.heldBy ip ≤ MAX_PAIRS_PER_IP
  ceiling : t.total ≤ MAX_TRACKED

theorem Inv.counted {t : Table A E} (h : t.Inv) : t.Counted :=
  ⟨by rw [h.total_eq, size_rows], h.no_empty⟩

theorem Counted.inv {t : Table A E} (h : t.Counted)
    (hshare : ∀ ip, (t.rows.under ip).size ≤ MAX_PAIRS_PER_IP) (hle : t.total ≤ MAX_TRACKED) :
    t.Inv :=
  ⟨by rw [h.total_eq, size_rows], h.no_empty, fun ip => by rw [heldBy_eq]; exact hshare ip, hle⟩

theorem Inv.under_le {t : Table A E} (h : t.Inv) (ip : A) :
    (t.rows.under ip).size ≤ MAX_PAIRS_PER_IP := by
  rw [← heldBy_eq]; exact h.share ip

theorem inv_default : (default : Table A E).Inv :=
  counted_default.inv (fun _ => by
    rw [FMap.size_eq_zero.mpr fun _ => rfl]; exact Nat.zero_le _) (Nat.zero_le _)

/-- Writing a new pair under an address with room for it keeps every address within its share. -/
theorem under_set_le {m : FMap (A × E) Entry} {ip : A} (email : E) (e : Entry)
    (h : ∀ a, (m.under a).size ≤ MAX_PAIRS_PER_IP) (hip : (m.under ip).size < MAX_PAIRS_PER_IP)
    (a : A) : ((m.set (ip, email) (some e)).under a).size ≤ MAX_PAIRS_PER_IP := by
  by_cases ha : a = ip
  · subst ha
    rw [FMap.under_set_self]
    exact (FMap.size_set_le _ _ _).trans hip
  · rw [FMap.under_set_ne _ _ _ ha]
    exact h a

theorem inv_load {t : Table A E} (h : t.Inv) {ip : A} {email : E} (e : Entry)
    (hnew : t.get ip email = none) (hshare : t.heldBy ip < MAX_PAIRS_PER_IP)
    (hroom : t.total < MAX_TRACKED) : (t.load ip email e).Inv := by
  refine (counted_load h.counted ip email e).inv ?_ ?_
  · rw [rows_load]
    exact under_set_le email e h.under_le (by rw [← heldBy_eq]; exact hshare)
  · simpa [load, hnew] using hroom

theorem inv_remove {t : Table A E} (h : t.Inv) (ip : A) (email : E) : (t.remove ip email).Inv := by
  have hcounted := counted_remove h.counted ip email
  have hrows : ∀ k, ((t.remove ip email).rows.get k).isSome → (t.rows.get k).isSome := by
    intro k
    rw [rows_remove, FMap.get_set]
    split <;> simp
  refine hcounted.inv (fun a => ?_) ?_
  · exact (FMap.size_le_of_get fun f => hrows (a, f)).trans (h.under_le a)
  · rw [hcounted.total_eq]
    exact (FMap.size_le_of_get hrows).trans (h.counted.total_eq ▸ h.ceiling)

theorem inv_reclaimAddress {t : Table A E} (h : t.Inv) (ip : A) (now : ℤ) :
    (t.reclaimAddress ip now).Inv := by
  have hcounted := counted_reclaimAddress h.counted ip now
  refine hcounted.inv (fun a => ?_) ?_
  · rw [rows_reclaimAddress]
    exact (FMap.size_under_filter_le _ _ a).trans (h.under_le a)
  · rw [hcounted.total_eq, rows_reclaimAddress]
    exact (FMap.size_filter_le _ _).trans (h.counted.total_eq ▸ h.ceiling)

/-- Making room only ever takes rows away. -/
theorem get_makeRoom {t t' : Table A E} {now : ℤ} (h : MadeRoom t now t') {k : A × E} {e : Entry}
    (hk : t'.rows.get k = some e) : t.rows.get k = some e := by
  cases h with
  | had _ heq => rwa [heq] at hk
  | swept _ _ hrows =>
    rw [hrows] at hk
    exact (FMap.get_filter_eq_some.mp hk).1
  | evicted p f _ _ hrows =>
    rw [hrows, FMap.get_set] at hk
    split at hk
    · exact absurd hk (by simp)
    · exact (FMap.get_filter_eq_some.mp hk).1

theorem under_makeRoom_le {t t' : Table A E} {now : ℤ} (h : MadeRoom t now t') (a : A) :
    (t'.rows.under a).size ≤ (t.rows.under a).size :=
  FMap.size_le_of_get fun f hf => by
    obtain ⟨e, he⟩ := Option.isSome_iff_exists.mp hf
    have := get_makeRoom h (k := (a, f)) he
    rw [FMap.get_under, this]; rfl

/-- STEP: an admission keeps the invariant. -/
theorem inv_admission {t : Table A E} (h : t.Inv) (order : Listing (A × E)) (ip : A) (email : E)
    (now : ℤ) : (t.admission order ip email now).1.Inv := by
  cases hg : t.get ip email with
  | some e =>
    rw [admission_held order hg]
    have hrow : t.rows.get (ip, email) = some e := hg
    have hkeys : ∀ k, ((put t.byIp ip email (e.admission now).1).flat.get k).isSome ↔
        (t.rows.get k).isSome := by
      intro k
      rw [flat_put, FMap.get_set]
      by_cases hk : k = (ip, email)
      · subst hk; simp [hrow]
      · rw [if_neg hk]; rfl
    refine Counted.inv ⟨?_, no_empty_put ip email _ h.no_empty⟩ (fun a => ?_) h.ceiling
    · exact h.counted.total_eq.trans (FMap.size_eq_of_get hkeys).symm
    · exact (FMap.size_eq_of_get fun f => hkeys (a, f)).le.trans (h.under_le a)
  | none =>
    have hr := inv_reclaimAddress h ip now
    by_cases hshare : MAX_PAIRS_PER_IP ≤ (t.reclaimAddress ip now).heldBy ip
    · rw [admission_refused order hg hshare]; exact hr
    · have hroom := Nat.lt_of_not_le hshare
      rw [admission_new order hg hroom]
      obtain ⟨hcounted, htotal, hmade⟩ := makeRoom_spec order hr.counted hr.ceiling now
      set room := (t.reclaimAddress ip now).makeRoom order now
      have hnew : room.rows.get (ip, email) = none := by
        by_contra hsome
        obtain ⟨e, he⟩ := Option.ne_none_iff_exists'.mp hsome
        have := get_makeRoom hmade he
        rw [get_rows, get_reclaimAddress_of_none now hg] at this
        exact absurd this (by simp)
      refine Counted.inv ⟨?_, no_empty_put ip email _ hcounted.no_empty⟩ ?_ htotal
      · show room.total + 1 = (put room.byIp ip email (Entry.first now)).flat.size
        rw [flat_put, hcounted.total_eq]
        exact (FMap.size_set_new _ hnew).symm
      · show ∀ a, ((put room.byIp ip email (Entry.first now)).flat.under a).size ≤ _
        rw [flat_put]
        refine under_set_le email _ (fun a => (under_makeRoom_le hmade a).trans (hr.under_le a)) ?_
        exact (under_makeRoom_le hmade ip).trans_lt (by rw [← heldBy_eq]; exact hroom)

/-- One operation on the table. `load` is of a distinct pair, within the caps. -/
inductive Step : Table A E → Table A E → Prop where
  | admission (order : Listing (A × E)) (t ip email now) : Step t (t.admission order ip email now).1
  | remove (t ip email) : Step t (t.remove ip email)
  | load (t ip email) (e : Entry) (hnew : t.get ip email = none)
      (hshare : t.heldBy ip < MAX_PAIRS_PER_IP) (hroom : t.total < MAX_TRACKED) :
      Step t (t.load ip email e)

/-- Reached from the empty table by any operations, at any clock readings, whatever order the maps
    iterate in each time. -/
def Reachable (t : Table A E) : Prop := Relation.ReflTransGen Step default t

/-- RUN: every reachable table keeps the invariant. -/
theorem inv_reachable {t : Table A E} (h : t.Reachable) : t.Inv := by
  induction h with
  | refl => exact inv_default
  | tail _ hstep ih =>
    cases hstep with
    | admission order _ ip email now => exact inv_admission ih order ip email now
    | remove _ ip email => exact inv_remove ih ip email
    | load _ ip email e hnew hshare hroom => exact inv_load ih e hnew hshare hroom

/-! ### Fairness -/

theorem liveRows_reclaimAddress (t : Table A E) (ip : A) (now : ℤ) :
    (t.reclaimAddress ip now).liveRows now = t.liveRows now := by
  rw [liveRows, liveRows, rows_reclaimAddress]
  exact FMap.filter_filter_of_imp fun _ e h => by rw [h, Bool.or_true]

theorem get_liveRows {t : Table A E} {now : ℤ} {p : A × E} {e : Entry} :
    (t.liveRows now).get p = some e ↔ t.rows.get p = some e ∧ live now e = true :=
  FMap.get_filter_eq_some

/-- STEP: the one live pair an admission can take away is the victim of a table full of live ones. -/
theorem victim_of_admission {t : Table A E} (h : t.Inv) (order : Listing (A × E)) {ip : A} {email : E}
    {now : ℤ} {p : A × E} {x : Entry} (hp : t.rows.get p = some x) (hlive : live now x = true)
    (hgone : (t.admission order ip email now).1.rows.get p = none) :
    (t.liveRows now).size = MAX_TRACKED ∧ Victim (t.liveRows now) now p x := by
  have hreclaim : (t.reclaimAddress ip now).rows.get p = some x := by
    rw [rows_reclaimAddress, FMap.get_filter_eq_some]
    exact ⟨hp, by rw [hlive, Bool.or_true]⟩
  cases hg : t.get ip email with
  | some e =>
    rw [admission_held order hg, rows, flat_put, FMap.get_set] at hgone
    split at hgone
    · exact absurd hgone (by simp)
    · exact absurd (hgone.symm.trans hp) (by simp)
  | none =>
    by_cases hshare : MAX_PAIRS_PER_IP ≤ (t.reclaimAddress ip now).heldBy ip
    · rw [admission_refused order hg hshare] at hgone
      exact absurd (hgone.symm.trans hreclaim) (by simp)
    · rw [admission_new order hg (Nat.lt_of_not_le hshare), rows, flat_put, FMap.get_set] at hgone
      split at hgone
      · exact absurd hgone (by simp)
      have hr := inv_reclaimAddress h ip now
      have hlive' : ((t.reclaimAddress ip now).liveRows now).get p = some x :=
        get_liveRows.mpr ⟨hreclaim, hlive⟩
      obtain ⟨_, _, hmade⟩ := makeRoom_spec order hr.counted hr.ceiling now
      change ((t.reclaimAddress ip now).makeRoom order now).rows.get p = none at hgone
      cases hmade with
      | had _ heq => exact absurd (hgone.symm.trans (heq ▸ hreclaim)) (by simp)
      | swept _ _ hrows => exact absurd (hgone.symm.trans (hrows ▸ hlive')) (by simp)
      | evicted q e hfull hvictim hrows =>
        rw [liveRows_reclaimAddress] at hlive' hfull hvictim hrows
        rw [hrows, FMap.get_set] at hgone
        split at hgone
        · rename_i hpq
          subst hpq
          obtain rfl := Option.some.inj (hlive'.symm.trans hvictim.held)
          have hle : (t.liveRows now).size ≤ MAX_TRACKED :=
            (FMap.size_filter_le _ _).trans (h.counted.total_eq ▸ h.ceiling)
          exact ⟨by omega, hvictim⟩
        · exact absurd (hgone.symm.trans hlive') (by simp)

/-- A table of `n` live pairs, its victim's address holding `k`, tracks `n / k` addresses. -/
theorem victim_addresses {t : Table A E} {now : ℤ} {p : A × E} {x : Entry}
    (h : Victim (t.liveRows now) now p x) :
    (t.liveRows now).size ≤ t.heldBy p.1 * t.byIp.keys.card := by
  have hle : ∀ ip, ((t.liveRows now).under ip).size ≤ t.heldBy p.1 := fun ip => by
    rw [heldBy_eq]
    exact (h.most ip).trans (FMap.size_under_filter_le _ _ _)
  have hsum : (t.liveRows now).size
      = ∑ ip ∈ t.byIp.keys, ((retainLive t.byIp now).group ip).size := by
    rw [liveRows, rows, ← flat_retainLive]
    refine FMap.size_flat _ fun ip hip => ?_
    obtain ⟨g, hg⟩ := FMap.mem_keys_iff.mp hip
    rw [retainLive, FMap.get_filterMap, Option.bind_eq_some_iff] at hg
    obtain ⟨pairs, hpairs, _⟩ := hg
    exact FMap.mem_keys_of_get hpairs
  rw [hsum, mul_comm]
  refine Finset.sum_le_card_nsmul _ _ _ fun ip _ => ?_
  rw [size_group_eq_under, flat_retainLive]
  exact hle ip

/-- CORRECT: a reachable table keeps its bounds, and an admission takes a live pair away only from a
    table full of live ones, at an address holding the most of them: the unlocked pair with the
    earliest window there, or the locked one soonest to expire when none is unlocked. -/
theorem bounded_and_fair {t : Table A E} (h : t.Reachable) :
    t.Inv ∧
    ∀ (order : Listing (A × E)) (ip : A) (email : E) (now : ℤ) (p : A × E) (x : Entry),
      t.rows.get p = some x → live now x = true →
      (t.admission order ip email now).1.rows.get p = none →
      (∀ a, ((t.liveRows now).under a).size ≤ ((t.liveRows now).under p.1).size) ∧
      (t.liveRows now).size = MAX_TRACKED ∧
      (∀ q y, (t.liveRows now).get q = some y →
        ((t.liveRows now).under q.1).size = ((t.liveRows now).under p.1).size →
        (x.lockedAt now = none → y.lockedAt now = none → x.windowStart ≤ y.windowStart) ∧
        (∀ u, x.lockedAt now = some u → ∃ v, y.lockedAt now = some v ∧ u ≤ v)) ∧
      MAX_TRACKED ≤ t.heldBy p.1 * t.byIp.keys.card := by
  have hinv := inv_reachable h
  refine ⟨hinv, fun order ip email now p x hp hlive hgone => ?_⟩
  obtain ⟨hfull, hvictim⟩ := victim_of_admission hinv order hp hlive hgone
  refine ⟨hvictim.most, hfull, fun q y hq hsame => ?_, ?_⟩
  · exact Entry.evictedBefore_eq_false (hvictim.first q y hq hsame)
  · rw [← hfull]; exact victim_addresses hvictim

/-- An address tracked nowhere is admitted, whatever the table holds. -/
theorem admission_unknown (order : Listing (A × E)) {t : Table A E} (h : t.Inv) {ip : A}
    (hnone : ∀ e, t.get ip e = none) (email : E) (now : ℤ) :
    t.admission order ip email now =
      ({ byIp := put (t.makeRoom order now).byIp ip email (Entry.first now)
         total := (t.makeRoom order now).total + 1 }, .Allow) := by
  have hip : t.byIp.get ip = none := by
    cases hg : t.byIp.get ip with
    | none => rfl
    | some pairs =>
      have hzero : pairs.size = 0 := FMap.size_eq_zero.mpr fun e => by
        have := hnone e
        rwa [get, hg, Option.bind_some] at this
      have := h.no_empty ip pairs hg
      omega
  have hreclaim : t.reclaimAddress ip now = t := by rw [reclaimAddress, hip]
  have hshare : (t.reclaimAddress ip now).heldBy ip < MAX_PAIRS_PER_IP := by
    rw [hreclaim, heldBy, FMap.group, hip, Option.getD_none, FMap.size_empty]
    decide
  rw [admission_new order (hnone email) hshare, hreclaim]

/-- `n` addresses, each admitted once at the epoch. -/
noncomputable def admittedFrom : ℕ → Table ℕ ℕ
  | 0 => default
  | n + 1 => ((admittedFrom n).admission (Listing.any _) n 0 0).1

theorem reachable_admittedFrom (n : ℕ) : (admittedFrom n).Reachable := by
  induction n with
  | zero => exact .refl
  | succ n ih => exact ih.tail (.admission _ _ _ _ _)

theorem admittedFrom_spec {n : ℕ} (h : n ≤ MAX_TRACKED) :
    (admittedFrom n).total = n ∧
    ∀ a e, (admittedFrom n).get a e = if a < n ∧ e = 0 then some (Entry.first 0) else none := by
  induction n with
  | zero => exact ⟨rfl, fun a e => by simp [admittedFrom, default, get]⟩
  | succ n ih =>
    obtain ⟨htotal, hget⟩ := ih (by omega)
    have hinv := inv_reachable (reachable_admittedFrom n)
    have hroom : (admittedFrom n).makeRoom (Listing.any _) 0 = admittedFrom n := by
      rw [makeRoom, if_pos (by omega)]
    have hnone : ∀ e, (admittedFrom n).get n e = none := fun e =>
      (hget n e).trans (if_neg (by omega))
    have hnew := admission_unknown (Listing.any _) hinv hnone 0 0
    rw [hroom] at hnew
    refine ⟨by rw [admittedFrom, hnew, htotal], fun a e => ?_⟩
    rw [admittedFrom, hnew, ← get_rows, rows, flat_put, FMap.get_set]
    by_cases hae : (a, e) = (n, 0)
    · obtain ⟨rfl, rfl⟩ := Prod.mk.inj hae
      simp
    · rw [if_neg hae]
      have : ¬(a = n ∧ e = 0) := fun h => hae (by rw [h.1, h.2])
      exact (hget a e).trans (by split <;> split <;> first | rfl | omega)

/-- A full table does let a live pair go, whose address then holds a fair part of the table. -/
theorem bounded_and_fair_full :
    ∃ p x, (admittedFrom MAX_TRACKED).rows.get p = some x ∧ live 0 x = true ∧
      ((admittedFrom MAX_TRACKED).admission (Listing.any _) MAX_TRACKED 0 0).1.rows.get p = none ∧
      MAX_TRACKED ≤ (admittedFrom MAX_TRACKED).heldBy p.1
        * (admittedFrom MAX_TRACKED).byIp.keys.card := by
  obtain ⟨n, hn⟩ : ∃ n, n = MAX_TRACKED := ⟨_, rfl⟩
  rw [← hn]
  obtain ⟨htotal, hget⟩ := admittedFrom_spec hn.le
  obtain ⟨hinv, hfair⟩ := bounded_and_fair (reachable_admittedFrom n)
  set t := admittedFrom n
  have hnone : ∀ e, t.get n e = none := fun e => (hget n e).trans (if_neg (by omega))
  have hnew := admission_unknown (Listing.any _) hinv hnone 0 0
  obtain ⟨hcounted, hroom, -⟩ := makeRoom_spec (Listing.any _) hinv.counted hinv.ceiling 0
  -- one of the `n` rows had to go, for fewer are left
  obtain ⟨p, hp, hgone⟩ : ∃ p ∈ t.rows.keys, p ∉ (t.makeRoom (Listing.any _) 0).rows.keys := by
    by_contra hall
    push Not at hall
    have hle : t.rows.size ≤ (t.makeRoom (Listing.any _) 0).rows.size := Finset.card_le_card hall
    rw [← hinv.counted.total_eq, ← hcounted.total_eq] at hle
    omega
  obtain ⟨x, hx⟩ := FMap.mem_keys_iff.mp hp
  have hfirst : x = Entry.first 0 := by
    have := hget p.1 p.2
    rw [← get_rows, hx] at this
    split at this
    · exact Option.some.inj this
    · exact absurd this (by simp)
  have hlive : live 0 x = true := by rw [hfirst]; decide
  have hkey : p ≠ (n, 0) := by
    rintro rfl
    rw [get_rows, hget, if_neg (by omega)] at hx
    exact absurd hx (by simp)
  have hgone : (t.admission (Listing.any _) n 0 0).1.rows.get p = none := by
    rw [hnew, rows, flat_put, FMap.get_set_ne _ _ hkey]
    exact FMap.notMem_keys.mp hgone
  exact ⟨p, x, hx, hlive, hgone, hn ▸ (hfair _ _ _ _ p x hx hlive hgone).2.2.2⟩

end Table

end Home.Throttle
