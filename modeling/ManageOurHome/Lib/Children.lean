import Mathlib.Data.List.Nodup
import Mathlib.Data.List.Perm.Basic

/-! @lib children of a node | layer:library | family:documents

    The children of a node of a document, each under a reference of its own, and what a script does to them: insert one
    before another, or last; replace one; remove one. A child inserted elsewhere is moved there.

        a b c     insert c before b     ──▶     a c b -/

namespace Children

variable {α ι : Type*} [DecidableEq ι] (ref : α → ι)

/-- The children but one. -/
def removeChild (l : List α) (n : α) : List α := l.filter fun m => ref m ≠ ref n

/-- `n` inserted before `before`, or last, moved from where it is. -/
def insertBefore (l : List α) (n : α) (before : Option α) : List α :=
  let rest := removeChild ref l n
  match before with
  | none => rest ++ [n]
  | some b => (rest.takeWhile fun m => ref m ≠ ref b) ++ n :: rest.dropWhile fun m => ref m ≠ ref b

/-- `n` in the place of `old`. -/
def replaceChild (l : List α) (n old : α) : List α := l.map fun m => if ref m = ref old then n else m

def nextSibling (l : List α) (n : α) : Option α := (l.dropWhile fun m => ref m ≠ ref n).tail.head?

/-- What follows `prev`, or the first child. -/
def following (l : List α) : Option α → Option α
  | some p => nextSibling ref l p
  | none => l.head?

/-- `n` right after `prev`, or first: left where it is if it stands there. -/
def place (l : List α) (prev : Option α) (n : α) : List α :=
  let before := following ref l prev
  if before.map ref = some (ref n) then l else insertBefore ref l n before

variable {ref} {done l : List α} {n p : α}

theorem removeChild_eq_self (h : ref n ∉ l.map ref) : removeChild ref l n = l := by
  refine List.filter_eq_self.mpr fun m hm => decide_eq_true fun heq => h ?_
  exact heq ▸ List.mem_map_of_mem hm

theorem dropWhile_ne_of_notMem (h : ref n ∉ done.map ref) :
    (done ++ n :: l).dropWhile (fun m => decide (ref m ≠ ref n)) = n :: l := by
  rw [List.dropWhile_append_of_pos, List.dropWhile_cons_of_neg (by simp)]
  exact fun m hm => decide_eq_true fun heq => h (heq ▸ List.mem_map_of_mem hm)

theorem takeWhile_ne_of_notMem (h : ref n ∉ done.map ref) :
    (done ++ n :: l).takeWhile (fun m => decide (ref m ≠ ref n)) = done := by
  rw [List.takeWhile_append_of_pos, List.takeWhile_cons_of_neg (by simp), List.append_nil]
  exact fun m hm => decide_eq_true fun heq => h (heq ▸ List.mem_map_of_mem hm)

/-- What follows the children done with. -/
theorem nextSibling_concat (h : ((done ++ [p] ++ l).map ref).Nodup) :
    nextSibling ref (done ++ [p] ++ l) p = l.head? := by
  rw [List.append_assoc, List.singleton_append, List.map_append, List.map_cons] at h
  have hp : ref p ∉ done.map ref := fun hmem =>
    (List.nodup_append.mp h).2.2 _ hmem _ List.mem_cons_self rfl
  rw [nextSibling, List.append_assoc, List.singleton_append, dropWhile_ne_of_notMem hp, List.tail_cons]

/-- A child placed after those done with, and the rest as it was. -/
theorem place_eq (h : ((done ++ l).map ref).Nodup) (hn : ref n ∉ done.map ref)
    (hsame : ∀ m ∈ l, ref m = ref n → m = n) :
    place ref (done ++ l) done.getLast? n = done ++ n :: removeChild ref l n := by
  have hbefore : following ref (done ++ l) done.getLast? = l.head? := by
    rcases List.eq_nil_or_concat done with rfl | ⟨before, p, rfl⟩
    · rfl
    · rw [List.concat_eq_append] at h ⊢
      rw [List.getLast?_concat]
      exact nextSibling_concat h
  rw [place, hbefore]
  cases l with
  | nil =>
    rw [List.head?_nil, Option.map_none, if_neg (by simp), List.append_nil, insertBefore, removeChild_eq_self hn]
    rfl
  | cons m l =>
    have hnodup := (List.nodup_append.mp (List.map_append ▸ h)).2.1
    rw [List.map_cons, List.nodup_cons] at hnodup
    rw [List.head?_cons, Option.map_some]
    by_cases hm : ref m = ref n
    · obtain rfl := hsame m List.mem_cons_self hm
      rw [if_pos rfl, removeChild, List.filter_cons_of_neg (by simp)]
      have hl : removeChild ref l m = l := removeChild_eq_self hnodup.1
      rw [removeChild] at hl
      rw [hl]
    · have hkept : removeChild ref (done ++ m :: l) n = done ++ m :: removeChild ref l n := by
        have hdone := removeChild_eq_self hn
        rw [removeChild] at hdone ⊢
        rw [List.filter_append, hdone, List.filter_cons_of_pos (by simpa using hm)]
        rfl
      have hmdone : ref m ∉ done.map ref := fun hmem =>
        (List.nodup_append.mp (List.map_append ▸ h)).2.2 _ hmem _ (by simp) rfl
      rw [if_neg (by simpa using hm), insertBefore]
      have hrest : removeChild ref (m :: l) n = m :: removeChild ref l n := List.filter_cons_of_pos (by simpa using hm)
      rw [hkept, takeWhile_ne_of_notMem hmdone, dropWhile_ne_of_notMem hmdone, hrest]

/-- A child placed leaves the references apart. -/
theorem nodup_place (h : ((done ++ l).map ref).Nodup) (hn : ref n ∉ done.map ref) :
    ((done ++ n :: removeChild ref l n).map ref).Nodup := by
  rw [List.map_append] at h ⊢
  obtain ⟨hdone, hl, hapart⟩ := List.nodup_append.mp h
  have hsub : (removeChild ref l n).map ref ⊆ l.map ref := (List.filter_sublist.map ref).subset
  rw [List.map_cons]
  refine List.nodup_append.mpr ⟨hdone, List.nodup_cons.mpr ⟨?_, ?_⟩, ?_⟩
  · intro hmem
    obtain ⟨m, hm, heq⟩ := List.mem_map.mp hmem
    exact of_decide_eq_true (List.mem_filter.mp hm).2 heq
  · exact hl.sublist (List.filter_sublist.map ref)
  · intro x hx y hy
    rcases List.mem_cons.mp hy with rfl | hy
    · exact fun heq => hn (heq ▸ hx)
    · exact hapart x hx y (hsub hy)

section

variable {old : α}

theorem replaceChild_append (l l' : List α) :
    replaceChild ref (l ++ l') n old = replaceChild ref l n old ++ replaceChild ref l' n old := List.map_append

theorem replaceChild_eq_self (h : ref old ∉ l.map ref) : replaceChild ref l n old = l := by
  have hkept : ∀ m ∈ l, (if ref m = ref old then n else m) = id m := by
    intro m hm
    refine if_neg fun heq => h ?_
    rw [← heq]
    exact List.mem_map_of_mem hm
  exact (List.map_congr_left hkept).trans (List.map_id l)

/-- A new child in the place of one leaves the references apart. -/
theorem nodup_replaceChild (h : (l.map ref).Nodup) (hn : ref n ∉ l.map ref) :
    ((replaceChild ref l n old).map ref).Nodup := by
  induction l with
  | nil => exact List.nodup_nil
  | cons m l ih =>
    rw [List.map_cons, List.nodup_cons] at h
    rw [List.map_cons, List.mem_cons, not_or] at hn
    rw [replaceChild, List.map_cons, List.map_cons, List.nodup_cons]
    have hrest : replaceChild ref l n old = l.map fun m => if ref m = ref old then n else m := rfl
    rw [← hrest]
    by_cases hm : ref m = ref old
    · rw [if_pos hm, replaceChild_eq_self (hm ▸ h.1)]
      exact ⟨hn.2, h.2⟩
    · rw [if_neg hm]
      refine ⟨fun hmem => ?_, ih h.2 hn.2⟩
      obtain ⟨x, hx, heq⟩ := List.mem_map.mp hmem
      obtain ⟨y, hy, rfl⟩ := List.mem_map.mp hx
      split at heq
      · exact hn.1 heq
      · exact h.1 (heq ▸ List.mem_map_of_mem hy)

/-- The new child removed, so is the one it replaces. -/
theorem removeChild_replaceChild (hn : ref n ∉ l.map ref) :
    removeChild ref (replaceChild ref l n old) n = removeChild ref l old := by
  induction l with
  | nil => rfl
  | cons m l ih =>
    rw [List.map_cons, List.mem_cons, not_or] at hn
    have hrest := ih hn.2
    rw [removeChild, replaceChild] at hrest
    rw [removeChild, replaceChild, List.map_cons]
    by_cases hm : ref m = ref old
    · rw [if_pos hm, List.filter_cons_of_neg (by simp), hrest, removeChild, removeChild,
        List.filter_cons_of_neg (by simpa using hm)]
    · rw [if_neg hm, List.filter_cons_of_pos (by simpa using Ne.symm hn.1), hrest, removeChild, removeChild,
        List.filter_cons_of_pos (by simpa using hm)]

end

/-- Children removed one by one. -/
theorem foldl_removeChild (ref : α → ι) (kept : α → Bool) (l removed : List α) :
    removed.foldl (fun list n => if kept n then list else removeChild ref list n) l =
      l.filter fun m => removed.all fun n => kept n || decide (ref m ≠ ref n) := by
  induction removed generalizing l with
  | nil => simp
  | cons n removed ih =>
    rw [List.foldl_cons, ih]
    cases hn : kept n with
    | true => simp [hn]
    | false =>
      rw [if_neg Bool.false_ne_true, removeChild, List.filter_filter]
      refine List.filter_congr fun m _ => ?_
      rw [List.all_cons, hn, Bool.false_or, Bool.and_comm]

end Children
