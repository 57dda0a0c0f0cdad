import ManageOurHome.Auth.ThrottleStore

/-! @src apps/api/src/auth/throttle.rs | layer:proof | family:rate-limit

    What the store writes back. A held pair changes its own row at most; a refusal deletes stale
    rows of its address; a new pair is inserted, after the rows it makes room with are deleted. -/

namespace Home.Throttle

open FiniteMap ReadCommitted

variable {S P K : Type*} [DecidableEq S] [DecidableEq P]

namespace Changes

theorem mem_removed {order : Listing (S × P)} {before after : Table S P} {k : S × P} :
    k ∈ (between order before after).removed ↔
      (∃ e, before.rows.get k = some e) ∧ after.rows.get k = none := by
  rw [between, List.mem_filter, order.mem_list, FMap.mem_keys_iff, Option.isNone_iff_eq_none]
  exact Iff.rfl

theorem removed_eq_nil {order : Listing (S × P)} {before after : Table S P}
    (h : ∀ k e, before.rows.get k = some e → after.rows.get k ≠ none) :
    (between order before after).removed = [] := by
  refine List.eq_nil_iff_forall_not_mem.mpr fun k hk => ?_
  obtain ⟨⟨e, he⟩, hnone⟩ := mem_removed.mp hk
  exact h k e he hnone

theorem written_eq_nil {order : Listing (S × P)} {before after : Table S P}
    (h : ∀ k e, after.rows.get k = some e → before.rows.get k = some e) :
    (between order before after).written = [] := by
  refine List.filterMap_eq_nil_iff.mpr fun k _ => ?_
  rcases hk : after.get k.1 k.2 with _ | e
  · rfl
  · exact if_pos (h k e hk)

theorem written_eq_one {order : Listing (S × P)} {before after : Table S P} {k : S × P} {e : Entry}
    (hk : after.rows.get k = some e) (hne : before.rows.get k ≠ some e)
    (h : ∀ j f, j ≠ k → after.rows.get j = some f → before.rows.get j = some f) :
    (between order before after).written = [(k, e)] := by
  refine filterMap_eq_singleton (order.nodup _) (order.mem_list _ _ |>.mpr (FMap.mem_keys_of_get hk))
    ?_ fun j _ hj => ?_
  · rw [show after.get k.1 k.2 = some e from hk, Option.bind_some]
    exact if_neg hne
  · rcases hf : after.get j.1 j.2 with _ | f
    · rfl
    · exact if_pos (h j f hj hf)

end Changes

/-! ### The three writes -/

section

variable (order : Listing (S × P)) {before after : Table S P}

/-- What a refusal at the share writes: the address's stale rows go. -/
theorem between_reclaim (before : Table S P) (scope : S) (now : ℤ) :
    (Changes.between order before (before.reclaimAddress scope now)).written = [] ∧
    ∀ k, k ∈ (Changes.between order before (before.reclaimAddress scope now)).removed ↔
      ∃ e, before.rows.get k = some e ∧ k.1 = scope ∧ e.isStale now = true := by
  constructor
  · refine Changes.written_eq_nil fun k e hk => ?_
    rw [Table.rows_reclaimAddress, FMap.get_filter_eq_some] at hk
    exact hk.1
  · intro k
    rw [Changes.mem_removed, Table.rows_reclaimAddress, FMap.get_filter]
    constructor
    · rintro ⟨⟨e, he⟩, hnone⟩
      refine ⟨e, he, ?_⟩
      rw [he] at hnone
      simpa [Option.filter, live] using hnone
    · rintro ⟨e, he, hscope, hstale⟩
      refine ⟨⟨e, he⟩, ?_⟩
      rw [he]
      simp [Option.filter, live, hscope, hstale]

/-- What a held pair writes: its own row, if it changed. -/
theorem between_held {k : S × P} {e e' : Entry} (he : before.rows.get k = some e)
    (hafter : after.rows = before.rows.set k (some e')) :
    (Changes.between order before after).removed = [] ∧
    (Changes.between order before after).written = if e' = e then [] else [(k, e')] := by
  have hrest : ∀ j f, j ≠ k → after.rows.get j = some f → before.rows.get j = some f := by
    intro j f hj hf
    rwa [hafter, FMap.get_set_ne _ _ hj] at hf
  have hself : after.rows.get k = some e' := by rw [hafter, FMap.get_set_self]
  constructor
  · refine Changes.removed_eq_nil fun j f hf => ?_
    rw [hafter, FMap.get_set]
    split
    · simp
    · rw [hf]; simp
  · split
    · rename_i heq
      subst heq
      refine Changes.written_eq_nil fun j f hf => ?_
      by_cases hj : j = k
      · subst hj
        rw [← Option.some.inj (hself.symm.trans hf)]
        exact he
      · exact hrest j f hj hf
    · rename_i hne
      refine Changes.written_eq_one hself (fun h => hne ?_) hrest
      exact Option.some.inj (h.symm.trans he)

/-- What a new pair writes: its row, once those it makes room with are deleted. -/
theorem between_new {k : S × P} {f : Entry} {room : FMap (S × P) Entry}
    (hnone : before.rows.get k = none)
    (hroom : ∀ j e, room.get j = some e → before.rows.get j = some e)
    (hafter : after.rows = room.set k (some f)) :
    (Changes.between order before after).written = [(k, f)] ∧
    ∀ j, j ∈ (Changes.between order before after).removed ↔
      (∃ e, before.rows.get j = some e) ∧ room.get j = none := by
  constructor
  · refine Changes.written_eq_one (by rw [hafter, FMap.get_set_self]) (by rw [hnone]; simp)
      fun j e hj he => ?_
    rw [hafter, FMap.get_set_ne _ _ hj] at he
    exact hroom j e he
  · intro j
    rw [Changes.mem_removed]
    refine and_congr_right fun ⟨e, he⟩ => ?_
    have hj : j ≠ k := fun h => by rw [h, hnone] at he; exact absurd he (by simp)
    rw [hafter, FMap.get_set_ne _ _ hj]

end

/-! ### A new pair's admission -/

/-- What `Table::admit` does to a pair it does not hold: refuse it at its address's share, or insert
    it fresh beside the rows it has room for. -/
inductive NewPair (before : Table S P) (k : S × P) (now : ℤ) : Table S P → Decision → Prop where
  | refused (retry : ℤ) : NewPair before k now (before.reclaimAddress k.1 now) (.Locked retry)
  | admitted (after : Table S P) (room : FMap (S × P) Entry)
      (hroom : ∀ j e, room.get j = some e → before.rows.get j = some e)
      (hshare : (room.under k.1).size < MAX_PAIRS_PER_IP)
      (hafter : after.rows = room.set k (some (Entry.first now))) :
      NewPair before k now after .Allow

theorem rows_put (byIp : FMap S (FMap P Entry)) (n : ℕ) (ip : S) (email : P) (e : Entry) :
    (⟨Table.put byIp ip email e, n⟩ : Table S P).rows = byIp.flat.set (ip, email) (some e) :=
  Table.flat_put byIp ip email e

/-- Reclaiming and making room only ever take rows away. -/
theorem get_room (order : Listing (S × P)) (t : Table S P) (now : ℤ) {k : S × P} {e : Entry}
    (h : (t.makeRoom order now).rows.get k = some e) : t.rows.get k = some e := by
  have hretain : ∀ {n}, (⟨Table.retainLive t.byIp now, n⟩ : Table S P).rows.get k = some e →
      t.rows.get k = some e := by
    intro n hk
    rw [Table.rows, Table.flat_retainLive, FMap.get_filter_eq_some] at hk
    exact hk.1
  unfold Table.makeRoom at h
  simp only at h
  split at h
  · exact h
  · split at h
    · exact hretain h
    · split at h
      · rw [Table.rows_remove, FMap.get_set] at h
        split at h
        · exact absurd h (by simp)
        · exact hretain h
      · exact hretain h

theorem newPair_of_admission (order : Listing (S × P)) {before : Table S P} {k : S × P} (now : ℤ)
    (hnone : before.rows.get k = none) :
    NewPair before k now (before.admission order k.1 k.2 now).1
      (before.admission order k.1 k.2 now).2 := by
  by_cases hshare : MAX_PAIRS_PER_IP ≤ (before.reclaimAddress k.1 now).heldBy k.1
  · rw [Table.admission_refused order hnone hshare]
    exact .refused _
  · rw [Table.admission_new order hnone (Nat.lt_of_not_le hshare)]
    have hget : ∀ j e, ((before.reclaimAddress k.1 now).makeRoom order now).rows.get j = some e →
        (before.reclaimAddress k.1 now).rows.get j = some e := fun j e he =>
      get_room order _ now he
    refine .admitted _ ((before.reclaimAddress k.1 now).makeRoom order now).rows (fun j e he => ?_)
      ?_ (rows_put ..)
    · have := hget j e he
      rw [Table.rows_reclaimAddress, FMap.get_filter_eq_some] at this
      exact this.1
    · refine lt_of_le_of_lt (FMap.size_le_of_get fun i hi => ?_)
        ((Table.heldBy_eq _ _).symm.trans_lt (Nat.lt_of_not_le hshare))
      obtain ⟨e, he⟩ := Option.isSome_iff_exists.mp hi
      rw [FMap.get_under, hget (k.1, i) e he]
      rfl

end Home.Throttle
