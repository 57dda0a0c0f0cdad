import Mathlib.Data.List.Forall2
import ManageOurHome.Lib.Children
import ManageOurHome.Text

/-! @src apps/web/src/routes/messagerie/thread.rs | layer:proof | family:messagerie

    The thread on the page, refreshed while a row of it is being edited. The fresh rows are put into the list in place,
    by their ids, around that row, which stays as it is, text typed and all; its own render waits until the edit closes.

        a b[editing] c     fresh  c a b d     ──▶     c' a b[editing] d -/

namespace Home.Messagerie.LiveThread

open Children

/-! ### Rows -/

/-- What a row lets one do: nothing more, edit and delete, or edit again a text that was refused. -/
inductive Controls where
  | ReadOnly
  | Editable
  | Rejected (submitted error : Text)
  deriving DecidableEq

/-- A row, by what is written in it. -/
structure Row (Id : Type) where
  id : Id
  mine : Bool
  messageMeta : Text
  quote : Text
  content : Text
  replies : Text
  controls : Controls
  deriving DecidableEq

section

variable {Id : Type}

/-- The text the edit form is served with, and the error above it. -/
def Row.form (row : Row Id) : Option (Text × Text) :=
  match row.controls with
  | .ReadOnly => none
  | .Editable => some (row.content, [])
  | .Rejected submitted error => some (submitted, error)

end

/-- A row of the page: one of its nodes, the disclosure of its form open or not, and the text typed there, which is in
    no render. -/
structure Node (Id : Type) where
  ref : ℕ
  row : Row Id
  opened : Bool
  typed : Text
  disclosed : opened = true → row.controls ≠ .ReadOnly
  deriving DecidableEq

/-- A row serialized, piece by piece. -/
structure OuterHtml (Id : Type) where
  id : Id
  mine : Bool
  messageMeta : Text
  quote : Text
  content : Text
  replies : Text
  /-- The line breaks among the actions. -/
  breaks : ℕ
  details : Option (Bool × Text × Text)
  deleteForm : Bool
  deriving DecidableEq

section

variable {Id : Type}

/-- A node parsed from what the server renders: only a refused edit is served open. -/
def Node.served (ref : ℕ) (row : Row Id) : Node Id where
  ref := ref
  row := row
  opened := match row.controls with
    | .Rejected _ _ => true
    | _ => false
  typed := (row.form.map Prod.fst).getD []
  disclosed := by
    intro hopened hreadOnly
    rw [hreadOnly] at hopened
    cases hopened

def Node.outerHTML (node : Node Id) : OuterHtml Id where
  id := node.row.id
  mine := node.row.mine
  messageMeta := node.row.messageMeta
  quote := node.row.quote
  content := node.row.content
  replies := node.row.replies
  breaks := match node.row.controls with
    | .ReadOnly => 1
    | .Editable => 3
    | .Rejected _ _ => 2
  details := node.row.form.map fun form => (node.opened, form)
  deleteForm := node.row.controls = .Editable

/-- The row without its disclosure. -/
def rowSignature (node : Node Id) : OuterHtml Id := { node.outerHTML with details := none }

end

/-! ### Threads -/

/-- `#thread` as fetched: its rows, unless it has no list, and the rest of what it shows. No edit was refused there. -/
structure Fresh (Id Rest : Type) where
  list : Option (List (Row Id))
  rest : Rest
  plain : ∀ rows ∈ list, ∀ row ∈ rows, row.controls = .ReadOnly ∨ row.controls = .Editable

/-- `#thread` on the page. `next` is the reference of the next node made. -/
structure Thread (Id Rest : Type) where
  list : Option (List (Node Id))
  rest : Rest
  pendingSync : Bool
  next : ℕ

section

variable {Id Rest : Type} [DecidableEq Id]

/-- The row whose edit form is open, if any. -/
def editingRow (thread : Thread Id Rest) : Option (Node Id) := thread.list.bind fun list => list.find? (·.opened)

/-- Nodes made for rows, one after the other. -/
def importRows (next : ℕ) : List (Row Id) → List (Node Id)
  | [] => []
  | row :: rows => .served next row :: importRows (next + 1) rows

/-- `thread.innerHTML = fresh.innerHTML`. -/
def Thread.swap (thread : Thread Id Rest) (fresh : Fresh Id Rest) : Thread Id Rest where
  list := fresh.list.map (importRows thread.next)
  rest := fresh.rest
  pendingSync := false
  next := thread.next + (fresh.list.getD []).length

/-- The pass over the fresh rows: the list, the node placed last, the ids seen. -/
structure Pass (Id : Type) where
  list : List (Node Id)
  prev : Option (Node Id)
  seen : List Id
  pendingSync : Bool
  next : ℕ

/-- The node that stands for a fresh row, in its place among the children already. -/
def Pass.nodeFor (s : Pass Id) (live : List (Node Id)) (editId : Id) (row : Row Id) : Option (Node Id) × Pass Id :=
  let node := live.reverse.find? (·.row.id = row.id)
  if row.id = editId then
    (node, { s with
      pendingSync := s.pendingSync || node.any fun n => rowSignature n ≠ rowSignature (.served s.next row) })
  else match node with
    | none => (some (.served s.next row), { s with next := s.next + 1 })
    | some n =>
      if n.outerHTML ≠ (Node.served s.next row).outerHTML then
        (some (.served s.next row),
          { s with list := replaceChild Node.ref s.list (.served s.next row) n, next := s.next + 1 })
      else (some n, s)

def Pass.step (live : List (Node Id)) (editId : Id) (s : Pass Id) (row : Row Id) : Pass Id :=
  match s.nodeFor live editId row with
  | (none, s) => s
  | (some node, s) =>
    { s with list := place Node.ref s.list s.prev node, prev := some node, seen := row.id :: s.seen }

def applyFresh (thread : Thread Id Rest) (fresh : Fresh Id Rest) : Thread Id Rest :=
  match editingRow thread with
  | none => thread.swap fresh
  | some editing =>
    match thread.list, fresh.list with
    | some live, some rows =>
      let s := rows.foldl (Pass.step live editing.row.id) ⟨live, none, [], thread.pendingSync, thread.next⟩
      let list := live.foldl (fun list n => if n.row.id ∈ s.seen then list else removeChild Node.ref list n) s.list
      let kept := { thread with list := some list, pendingSync := s.pendingSync, next := s.next }
      if (editingRow kept).isNone then kept.swap fresh else kept
    -- no list on one side: held back
    | _, _ => { thread with pendingSync := true }

end

/-! ### What is shown -/

section

variable {Id Rest : Type} {node edit : Node Id} {row : Row Id} {a b : ℕ}

/-- A row serialized as a fresh one is not being edited. -/
theorem closed_of_outerHTML (hplain : row.controls = .ReadOnly ∨ row.controls = .Editable)
    (h : node.outerHTML = (Node.served a row).outerHTML) : node.opened = false := by
  have hdetails := congrArg OuterHtml.details h
  have hbreaks := congrArg OuterHtml.breaks h
  simp only [Node.outerHTML, Node.served, Row.form] at hdetails hbreaks
  rcases hplain with hplain | hplain
  · -- a disclosure is what an open row has
    by_contra hopened
    have hcontrols := node.disclosed (by simpa using hopened)
    rw [hplain] at hbreaks
    cases hrow : node.row.controls with
    | ReadOnly => exact hcontrols hrow
    | Editable => simp [hrow] at hbreaks
    | Rejected s e => simp [hrow] at hbreaks
  · cases hrow : node.row.controls with
    | ReadOnly => simp [hrow, hplain] at hbreaks
    | Editable =>
      simp only [hrow, hplain, Option.map_some, Option.some.injEq, Prod.mk.injEq] at hdetails
      exact hdetails.1
    | Rejected s e => simp [hrow, hplain] at hbreaks

/-- Two rows that differ, the second not a refused edit, differ outside of their disclosures. -/
theorem eq_of_rowSignature (hplain : row.controls = .ReadOnly ∨ row.controls = .Editable)
    (h : rowSignature node = rowSignature (.served a row)) : node.row = row := by
  obtain ⟨ref, ⟨id, mine, meta', quote, content, replies, controls⟩, opened, typed, hdisclosed⟩ := node
  obtain ⟨id', mine', meta'', quote', content', replies', controls'⟩ := row
  simp only [rowSignature, Node.outerHTML, Node.served, OuterHtml.mk.injEq] at h hplain
  obtain ⟨rfl, rfl, rfl, rfl, rfl, rfl, hbreaks, -⟩ := h
  rcases hplain with rfl | rfl
  · cases controls <;> simp_all
  · cases controls <;> simp_all

/-- What stands for a fresh row: the row edited, untouched, or one that shows the fresh render. -/
def StandsFor [DecidableEq Id] (edit : Node Id) (row : Row Id) (node : Node Id) : Prop :=
  if row.id = edit.row.id then node = edit else node.outerHTML = (Node.served 0 row).outerHTML

theorem standsFor_edit [DecidableEq Id] (h : row.id = edit.row.id) : StandsFor edit row edit := by
  rw [StandsFor, if_pos h]

theorem standsFor_of_ne [DecidableEq Id] (h : row.id ≠ edit.row.id)
    (hshown : node.outerHTML = (Node.served a row).outerHTML) : StandsFor edit row node := by
  rw [StandsFor, if_neg h]
  exact hshown

end

/-- A list of rows under ids and references of their own. -/
structure Thread.WellFormed {Id Rest : Type} (thread : Thread Id Rest) : Prop where
  ids : ∀ live ∈ thread.list, (live.map (·.row.id)).Nodup
  refs : ∀ live ∈ thread.list, (live.map Node.ref).Nodup
  next : ∀ live ∈ thread.list, ∀ n ∈ live, n.ref < thread.next

/-! ### The pass over the fresh rows -/

section

variable {Id : Type} [DecidableEq Id] {live : List (Node Id)} {edit node : Node Id} {row : Row Id}
  {rows : List (Row Id)} {s : Pass Id} {owed : Bool} {next : ℕ}

/-- The live rows whose id is not among those of `rows`. -/
def unseen (live : List (Node Id)) (rows : List (Row Id)) : List (Node Id) :=
  live.filter fun n => n.row.id ∉ rows.map Row.id

/-- The pass once it has gone over `rows`: their nodes in order, then the live rows not seen. -/
structure Passed (live : List (Node Id)) (edit : Node Id) (owed : Bool) (next : ℕ) (rows : List (Row Id)) (s : Pass Id)
    (nodes : List (Node Id)) : Prop where
  list : s.list = nodes ++ unseen live rows
  stands : List.Forall₂ (StandsFor edit) rows nodes
  prev : s.prev = nodes.getLast?
  seen : ∀ id, id ∈ s.seen ↔ id ∈ rows.map Row.id
  pendingSync : s.pendingSync = (owed || decide (∃ row ∈ rows, row.id = edit.row.id ∧ row ≠ edit.row))
  refs : (s.list.map Node.ref).Nodup
  made : ∀ n ∈ nodes, n ∈ live ∧ n.row.id ∈ rows.map Row.id ∨ next ≤ n.ref ∧ n.ref < s.next
  next_le : next ≤ s.next

/-- The rows of the live thread, told apart by their ids as by their references. -/
structure Apart (live : List (Node Id)) (next : ℕ) : Prop where
  ids : (live.map (·.row.id)).Nodup
  refs : (live.map Node.ref).Nodup
  next : ∀ n ∈ live, n.ref < next

theorem Apart.find (h : Apart live next) {id : Id} :
    live.reverse.find? (·.row.id = id) = some node ↔ node ∈ live ∧ node.row.id = id := by
  constructor
  · intro hfind
    exact ⟨List.mem_reverse.mp (List.mem_of_find?_eq_some hfind), by simpa using List.find?_some hfind⟩
  · rintro ⟨hmem, rfl⟩
    cases hfind : live.reverse.find? (·.row.id = node.row.id) with
    | none =>
      have := List.find?_eq_none.mp hfind node (List.mem_reverse.mpr hmem)
      simp at this
    | some n =>
      have hn := List.mem_reverse.mp (List.mem_of_find?_eq_some hfind)
      have hid : n.row.id = node.row.id := by simpa using List.find?_some hfind
      rw [List.inj_on_of_nodup_map h.ids hn hmem hid]

/-- A row seen is one less to see. -/
theorem Apart.removeChild_unseen (h : Apart live next) (hnode : node ∈ live) (hid : node.row.id = row.id) :
    removeChild Node.ref (unseen live rows) node = unseen live (rows ++ [row]) := by
  rw [removeChild, unseen, unseen, List.filter_filter]
  refine List.filter_congr fun n hn => ?_
  have href : n.ref = node.ref ↔ n.row.id = row.id := by
    rw [← hid]
    exact ⟨fun heq => by rw [List.inj_on_of_nodup_map h.refs hn hnode heq],
      fun heq => by rw [List.inj_on_of_nodup_map h.ids hn hnode heq]⟩
  have hmem : n.row.id ∈ (rows ++ [row]).map Row.id ↔ n.row.id = row.id ∨ n.row.id ∈ rows.map Row.id := by
    rw [List.map_append, List.mem_append, List.map_singleton, List.mem_singleton, or_comm]
  rw [← Bool.decide_and, decide_eq_decide, hmem, ← href, not_or]

/-- A row that is not in the live thread leaves what is to see. -/
theorem unseen_concat_of_notMem (h : ∀ n ∈ live, n.row.id ≠ row.id) :
    unseen live (rows ++ [row]) = unseen live rows := by
  refine List.filter_congr fun n hn => ?_
  simp [h n hn]

/-- STEP: a fresh row is given its place. -/
theorem Passed.step {nodes : List (Node Id)} (h : Passed live edit owed next rows s nodes) (hlive : Apart live next)
    (hedit : edit ∈ live) (hnew : row.id ∉ rows.map Row.id)
    (hplain : row.controls = .ReadOnly ∨ row.controls = .Editable) :
    ∃ node, Passed live edit owed next (rows ++ [row]) (s.step live edit.row.id row) (nodes ++ [node]) := by
  obtain ⟨hlist, hstands, hprev, hseen, hpending, hrefs, hmade, hnext⟩ := h
  -- the node placed after those done with
  have hplace : ∀ {list : List (Node Id)} {rest : List (Node Id)} {node : Node Id}, list = nodes ++ rest →
      (list.map Node.ref).Nodup → node.ref ∉ nodes.map Node.ref → (∀ m ∈ rest, m.ref = node.ref → m = node) →
        place Node.ref list s.prev node = nodes ++ [node] ++ removeChild Node.ref rest node := by
    rintro list rest node rfl hnodup hout hsame
    rw [hprev, place_eq hnodup hout hsame, List.append_assoc, List.singleton_append]
  have hseen' : ∀ id, id ∈ row.id :: s.seen ↔ id ∈ (rows ++ [row]).map Row.id := by
    intro id
    rw [List.mem_cons, hseen, List.map_append, List.mem_append, List.map_singleton, List.mem_singleton, or_comm]
  have hout : ∀ n ∈ live, n.row.id = row.id → n.ref ∉ nodes.map Node.ref := by
    intro n hn hid hmem
    obtain ⟨m, hm, href⟩ := List.mem_map.mp hmem
    rcases hmade m hm with ⟨hmlive, hmid⟩ | ⟨hmnext, -⟩
    · rw [List.inj_on_of_nodup_map hlive.refs hmlive hn href, hid] at hmid
      exact hnew hmid
    · have := hlive.next n hn
      omega
  have hunseen : ∀ n ∈ live, n.row.id = row.id → n ∈ unseen live rows := by
    intro n hn hid
    exact List.mem_filter.mpr ⟨hn, by simpa [hid] using hnew⟩
  have hmade' : ∀ n ∈ nodes, ∀ next', s.next ≤ next' →
      (n ∈ live ∧ n.row.id ∈ (rows ++ [row]).map Row.id ∨ next ≤ n.ref ∧ n.ref < next') := by
    intro n hn next' hle
    refine (hmade n hn).imp (fun hm => ⟨hm.1, ?_⟩) fun hm => ⟨hm.1, by omega⟩
    rw [List.map_append]
    exact List.mem_append_left _ hm.2
  have hbelow : ∀ n ∈ s.list, n.ref < s.next := by
    intro n hn
    rw [hlist] at hn
    rcases List.mem_append.mp hn with hn | hn
    · rcases hmade n hn with ⟨hm, -⟩ | ⟨-, hlt⟩
      · have := hlive.next n hm
        omega
      · exact hlt
    · have := hlive.next n (List.mem_of_mem_filter hn)
      omega
  -- the pass with a node placed, whatever has become of the rest of the list
  have hpass : ∀ {list rest : List (Node Id)} {node : Node Id} {owed' : Bool} {next' : ℕ}, list = nodes ++ rest →
      (list.map Node.ref).Nodup → node.ref ∉ nodes.map Node.ref → (∀ m ∈ rest, m.ref = node.ref → m = node) →
      removeChild Node.ref rest node = unseen live (rows ++ [row]) → StandsFor edit row node →
      (node ∈ live ∧ node.row.id = row.id ∨ next ≤ node.ref ∧ node.ref < next') → s.next ≤ next' →
      owed' = (s.pendingSync || decide (row.id = edit.row.id ∧ row ≠ edit.row)) →
        Passed live edit owed next (rows ++ [row])
          ⟨place Node.ref list s.prev node, some node, row.id :: s.seen, owed', next'⟩ (nodes ++ [node]) := by
    rintro list rest node owed' next' rfl hnodup hnode hsame hrest hstandsFor hmadeNode hle howed
    have hat := hplace rfl hnodup hnode hsame
    refine ⟨by rw [hat, hrest], List.rel_append hstands (.cons hstandsFor .nil), List.getLast?_concat.symm, hseen',
      ?_, ?_, ?_, hnext.trans hle⟩
    · have hor : (∃ r ∈ rows ++ [row], r.id = edit.row.id ∧ r ≠ edit.row) ↔
          (∃ r ∈ rows, r.id = edit.row.id ∧ r ≠ edit.row) ∨ (row.id = edit.row.id ∧ row ≠ edit.row) := by
        simp only [List.mem_append, List.mem_singleton, or_and_right, exists_or, exists_eq_left]
      rw [howed, hpending, Bool.or_assoc, ← Bool.decide_or]
      exact congrArg (owed || ·) (decide_eq_decide.mpr hor.symm)
    · have hplaced := nodup_place hnodup hnode
      dsimp only
      rw [hat, List.append_assoc, List.singleton_append]
      exact hplaced
    · intro n hn
      rcases List.mem_append.mp hn with hn | hn
      · exact hmade' n hn next' hle
      · obtain rfl := List.mem_singleton.mp hn
        exact hmadeNode.imp (fun h => ⟨h.1, by rw [h.2]; simp⟩) id
  -- a node of the live thread, and the rest of it
  have hkeep : ∀ {node : Node Id} {owed' : Bool}, node ∈ live → node.row.id = row.id → StandsFor edit row node →
      owed' = (s.pendingSync || decide (row.id = edit.row.id ∧ row ≠ edit.row)) →
        Passed live edit owed next (rows ++ [row])
          ⟨place Node.ref s.list s.prev node, some node, row.id :: s.seen, owed', s.next⟩ (nodes ++ [node]) := by
    intro node owed' hmem hid hfor howed
    refine hpass hlist hrefs (hout node hmem hid) (fun m hm heq => ?_) (hlive.removeChild_unseen hmem hid) hfor
      (.inl ⟨hmem, hid⟩) le_rfl howed
    exact List.inj_on_of_nodup_map hlive.refs (List.mem_of_mem_filter hm) hmem heq
  have hfresh : ∀ {l : List (Node Id)}, l ⊆ s.list → (Node.served s.next row).ref ∉ l.map Node.ref := by
    intro l hl hmem
    obtain ⟨m, hm, heq⟩ := List.mem_map.mp hmem
    have hlt := hbelow m (hl hm)
    change m.ref = s.next at heq
    omega
  have hnodes : nodes ⊆ s.list := hlist ▸ List.subset_append_left _ _
  have hrest : unseen live rows ⊆ s.list := hlist ▸ List.subset_append_right _ _
  by_cases hid : row.id = edit.row.id
  · -- the row edited
    have hfind := hlive.find.mpr ⟨hedit, hid.symm⟩
    refine ⟨edit, ?_⟩
    rw [Pass.step, Pass.nodeFor]
    rw [if_pos hid, hfind]
    refine hkeep hedit hid.symm (standsFor_edit hid) ?_
    have hdiffer : rowSignature edit ≠ rowSignature (.served s.next row) ↔ row.id = edit.row.id ∧ row ≠ edit.row := by
      refine ⟨fun h => ⟨hid, fun heq => h ?_⟩, fun h heq => h.2 (eq_of_rowSignature hplain heq).symm⟩
      rw [heq]
      rfl
    rw [Option.any_some]
    exact congrArg (s.pendingSync || ·) (decide_eq_decide.mpr hdiffer)
  · have howed : s.pendingSync = (s.pendingSync || decide (row.id = edit.row.id ∧ row ≠ edit.row)) := by
      rw [decide_eq_false fun h => hid h.1, Bool.or_false]
    cases hfind : live.reverse.find? (·.row.id = row.id) with
    | none =>
      -- a row that is new
      have hnone : ∀ n ∈ live, n.row.id ≠ row.id := by
        intro n hn heq
        rw [hlive.find.mpr ⟨hn, heq⟩] at hfind
        cases hfind
      refine ⟨.served s.next row, ?_⟩
      rw [Pass.step, Pass.nodeFor]
      rw [if_neg hid, hfind]
      refine hpass hlist hrefs (hfresh hnodes) (fun m hm heq => absurd (heq ▸ List.mem_map_of_mem hm) (hfresh hrest)) ?_
        (standsFor_of_ne hid rfl) (.inr ⟨hnext, Nat.lt_succ_self _⟩) (Nat.le_succ _) howed
      rw [unseen_concat_of_notMem hnone]
      exact removeChild_eq_self (hfresh hrest)
    | some n =>
      obtain ⟨hn, hnid⟩ := hlive.find.mp hfind
      by_cases hsame : n.outerHTML = (Node.served s.next row).outerHTML
      · -- a row that has not moved
        refine ⟨n, ?_⟩
        rw [Pass.step, Pass.nodeFor]
        rw [if_neg hid, hfind]
        dsimp only
        rw [if_neg (not_not.mpr hsame)]
        exact hkeep hn hnid (standsFor_of_ne hid hsame) howed
      · -- a row replaced
        refine ⟨.served s.next row, ?_⟩
        rw [Pass.step, Pass.nodeFor]
        rw [if_neg hid, hfind]
        dsimp only
        rw [if_pos hsame]
        have hreplaced : replaceChild Node.ref s.list (.served s.next row) n =
            nodes ++ replaceChild Node.ref (unseen live rows) (.served s.next row) n := by
          rw [hlist, replaceChild_append, replaceChild_eq_self (hout n hn hnid)]
        refine hpass hreplaced (nodup_replaceChild hrefs (hfresh (List.Subset.refl _))) (hfresh hnodes)
          (fun m hm heq => ?_) ?_ (standsFor_of_ne hid rfl) (.inr ⟨hnext, Nat.lt_succ_self _⟩) (Nat.le_succ _) howed
        · obtain ⟨x, hx, rfl⟩ := List.mem_map.mp hm
          split at heq
          · rw [if_pos ‹_›]
          · exact absurd (heq ▸ List.mem_map_of_mem hx) (hfresh hrest)
        · rw [removeChild_replaceChild (hfresh hrest)]
          exact hlive.removeChild_unseen hn hnid

/-- RUN: the pass over all the fresh rows. -/
theorem passed_foldl (hlive : Apart live next) (hedit : edit ∈ live) (hrows : (rows.map Row.id).Nodup)
    (hplain : ∀ row ∈ rows, row.controls = .ReadOnly ∨ row.controls = .Editable) :
    ∃ nodes, Passed live edit owed next rows
      (rows.foldl (Pass.step live edit.row.id) ⟨live, none, [], owed, next⟩) nodes := by
  induction rows using List.reverseRecOn with
  | nil =>
    have hall : unseen live [] = live := List.filter_eq_self.mpr fun n _ => by simp
    exact ⟨[], by simp [hall], .nil, rfl, fun id => by simp, by simp, hlive.refs,
      fun n hn => absurd hn List.not_mem_nil, le_rfl⟩
  | append_singleton rows row ih =>
    rw [List.map_append, List.map_singleton] at hrows
    obtain ⟨hbefore, -, hnew⟩ := List.nodup_append.mp hrows
    obtain ⟨nodes, hpassed⟩ := ih hbefore fun r hr => hplain r (List.mem_append_left _ hr)
    obtain ⟨node, hstep⟩ := hpassed.step hlive hedit (fun hmem => hnew _ hmem _ (List.mem_singleton_self _) rfl)
      (hplain row (by simp))
    rw [List.foldl_append]
    exact ⟨_, hstep⟩

/-- The rows not seen are removed, and only they. -/
theorem Passed.remaining {nodes : List (Node Id)} (h : Passed live edit owed next rows s nodes)
    (hlive : Apart live next) :
    live.foldl (fun list n => if n.row.id ∈ s.seen then list else removeChild Node.ref list n) s.list = nodes := by
  have hfold := foldl_removeChild Node.ref (fun n : Node Id => decide (n.row.id ∈ s.seen)) s.list live
  simp only [decide_eq_true_eq] at hfold
  rw [hfold, h.list, List.filter_append]
  have hkept : nodes.filter
      (fun m => live.all fun n => decide (n.row.id ∈ s.seen) || decide (m.ref ≠ n.ref)) = nodes := by
    refine List.filter_eq_self.mpr fun m hm => List.all_eq_true.mpr fun n hn => ?_
    rw [Bool.or_eq_true, decide_eq_true_eq, decide_eq_true_eq, h.seen]
    refine or_iff_not_imp_right.mpr fun href => ?_
    rw [not_not] at href
    rcases h.made m hm with ⟨hlivem, hid⟩ | ⟨hnext, -⟩
    · rwa [← List.inj_on_of_nodup_map hlive.refs hlivem hn href]
    · have := hlive.next n hn
      omega
  have hgone : (unseen live rows).filter
      (fun m => live.all fun n => decide (n.row.id ∈ s.seen) || decide (m.ref ≠ n.ref)) = [] := by
    refine List.filter_eq_nil_iff.mpr fun m hm hall => ?_
    obtain ⟨hlivem, hid⟩ := List.mem_filter.mp hm
    have hself := List.all_eq_true.mp hall m hlivem
    rw [Bool.or_eq_true, decide_eq_true_eq, decide_eq_true_eq, h.seen] at hself
    have hunseen : m.row.id ∉ rows.map Row.id := by simpa using hid
    exact hself.elim hunseen fun hne => hne rfl
  rw [hkept, hgone, List.append_nil]

/-! ### A refresh -/

variable {Rest : Type} {thread : Thread Id Rest} {fresh : Fresh Id Rest}

/-- Exactly the fresh thread is shown, in nodes made for it, and nothing is owed. -/
def Shows (thread : Thread Id Rest) (fresh : Fresh Id Rest) : Prop :=
  (∃ next, thread.list = fresh.list.map (importRows next)) ∧ thread.rest = fresh.rest ∧ thread.pendingSync = false

omit [DecidableEq Id] in
theorem shows_swap (thread : Thread Id Rest) (fresh : Fresh Id Rest) : Shows (thread.swap fresh) fresh :=
  ⟨⟨thread.next, rfl⟩, rfl, rfl⟩

/-- With no edit open, a refresh shows the fresh thread. -/
theorem shows_of_not_editing (h : editingRow thread = none) : Shows (applyFresh thread fresh) fresh := by
  rw [applyFresh, h]
  exact shows_swap thread fresh

omit [DecidableEq Id] in
/-- The row edited is among those of the list. -/
theorem mem_of_editingRow (hlist : thread.list = some live) (h : editingRow thread = some edit) :
    edit ∈ live ∧ edit.opened = true := by
  rw [editingRow, hlist, Option.bind_some] at h
  exact ⟨List.mem_of_find?_eq_some h, List.find?_some h⟩

/-- Among the nodes that stand for fresh rows, the one edited is the only one open, if it is there. -/
theorem find_opened {nodes : List (Node Id)} (h : List.Forall₂ (StandsFor edit) rows nodes)
    (hopened : edit.opened = true) (hplain : ∀ row ∈ rows, row.controls = .ReadOnly ∨ row.controls = .Editable) :
    nodes.find? (·.opened) = if edit.row.id ∈ rows.map Row.id then some edit else none := by
  induction h with
  | nil => rfl
  | @cons row node rows nodes hfor hrest ih =>
    have ih := ih fun r hr => hplain r (List.mem_cons_of_mem _ hr)
    rw [StandsFor] at hfor
    split at hfor
    · subst hfor
      rw [List.find?_cons_of_pos hopened, if_pos]
      rw [List.map_cons, ‹row.id = node.row.id›]
      exact List.mem_cons_self
    · have hclosed := closed_of_outerHTML (hplain row List.mem_cons_self) hfor
      rw [List.find?_cons_of_neg (by simp [hclosed]), ih]
      have hiff : edit.row.id ∈ (row :: rows).map Row.id ↔ edit.row.id ∈ rows.map Row.id := by
        rw [List.map_cons, List.mem_cons, or_iff_right (Ne.symm ‹_›)]
      by_cases hmem : edit.row.id ∈ rows.map Row.id
      · rw [if_pos hmem, if_pos (hiff.mpr hmem)]
      · rw [if_neg hmem, if_neg (mt hiff.mp hmem)]

/-- The refresh of a list with a row being edited. -/
theorem applyFresh_of_list (hthread : thread.WellFormed) (hlist : thread.list = some live)
    (hedit : editingRow thread = some edit) (hfresh : fresh.list = some rows) (hrows : (rows.map Row.id).Nodup) :
    (edit.row.id ∈ rows.map Row.id → ∃ nodes, (applyFresh thread fresh).list = some nodes ∧
        List.Forall₂ (StandsFor edit) rows nodes ∧ (applyFresh thread fresh).pendingSync =
          (thread.pendingSync || decide (∃ row ∈ rows, row.id = edit.row.id ∧ row ≠ edit.row))) ∧
      (edit.row.id ∉ rows.map Row.id → Shows (applyFresh thread fresh) fresh) := by
  have hlive : Apart live thread.next := ⟨hthread.ids live hlist, hthread.refs live hlist, hthread.next live hlist⟩
  obtain ⟨hmem, hopened⟩ := mem_of_editingRow hlist hedit
  have hplain := fresh.plain rows hfresh
  obtain ⟨nodes, hpassed⟩ : ∃ nodes, Passed live edit thread.pendingSync thread.next rows _ nodes :=
    passed_foldl hlive hmem hrows hplain
  have hfind := find_opened hpassed.stands hopened hplain
  rw [applyFresh, hedit]
  dsimp only
  rw [hlist, hfresh]
  dsimp only
  generalize rows.foldl (Pass.step live edit.row.id) ⟨live, none, [], thread.pendingSync, thread.next⟩ = s at hpassed ⊢
  rw [hpassed.remaining hlive, editingRow, Option.bind_some, hfind]
  constructor
  · intro hin
    rw [if_pos hin]
    exact ⟨nodes, rfl, hpassed.stands, hpassed.pendingSync⟩
  · intro hout
    rw [if_neg hout]
    exact shows_swap _ _

/-- What the end of an edit does: whether a refresh held back is asked for. -/
def toggled (thread : Thread Id Rest) : Thread Id Rest × Bool :=
  if thread.pendingSync ∧ (editingRow thread).isNone then ({ thread with pendingSync := false }, true)
  else (thread, false)

/-- CORRECT: a live refresh keeps the row edited, untouched, and shows the rest as fresh, in the fresh order; the row's
    own render is owed if it differs. A fresh thread with rows and not that one is shown whole; one with no list at all
    leaves the page as it is, and is owed. Once the edit is closed what is owed is asked for, and shown whole. -/
theorem applyFresh_keeps_edit (fresh : Fresh Id Rest) (hthread : thread.WellFormed) (hlist : thread.list = some live)
    (hedit : editingRow thread = some edit) (hrows : ∀ rows ∈ fresh.list, (rows.map Row.id).Nodup) :
    (∀ rows ∈ fresh.list, edit.row.id ∈ rows.map Row.id → ∃ nodes, (applyFresh thread fresh).list = some nodes ∧
        List.Forall₂ (StandsFor edit) rows nodes ∧ (applyFresh thread fresh).pendingSync =
          (thread.pendingSync || decide (∃ row ∈ rows, row.id = edit.row.id ∧ row ≠ edit.row))) ∧
      (∀ rows ∈ fresh.list, edit.row.id ∉ rows.map Row.id → Shows (applyFresh thread fresh) fresh) ∧
      (fresh.list = none → applyFresh thread fresh = { thread with pendingSync := true }) ∧
      ∀ closed : Thread Id Rest, editingRow closed = none →
        (toggled closed).2 = closed.pendingSync ∧ Shows (applyFresh (toggled closed).1 fresh) fresh := by
  refine ⟨fun rows hfresh => (applyFresh_of_list hthread hlist hedit hfresh (hrows rows hfresh)).1,
    fun rows hfresh => (applyFresh_of_list hthread hlist hedit hfresh (hrows rows hfresh)).2, fun hnone => ?_,
    fun closed hclosed => ?_⟩
  · rw [applyFresh, hedit]
    dsimp only
    rw [hlist, hnone]
  · rw [toggled, hclosed]
    cases hpending : closed.pendingSync with
    | true => exact ⟨rfl, shows_of_not_editing hclosed⟩
    | false => exact ⟨rfl, shows_of_not_editing hclosed⟩

end

/-! ### A thread of one row -/

/-- A row of the page, its form open. -/
def lone : Row ℕ := ⟨0, true, [], [], ['a'], [], .Editable⟩

def loneThread : Thread ℕ Text := ⟨some [⟨0, lone, true, ['b'], by simp [lone]⟩], [], false, 1⟩

/-- The thread once its only row is deleted. -/
def emptied : Fresh ℕ Text := ⟨none, ['v', 'i', 'd', 'e'], by simp⟩

theorem loneThread_wellFormed : loneThread.WellFormed :=
  ⟨by simp [loneThread], by simp [loneThread], by simp [loneThread]⟩

/-- The row edited is gone from the fresh thread, and still shown. -/
theorem emptied_held_back : ¬ ∀ (thread : Thread ℕ Text) (fresh : Fresh ℕ Text) (edit : Node ℕ), thread.WellFormed →
    editingRow thread = some edit → (∀ rows ∈ fresh.list, edit.row.id ∉ rows.map Row.id) →
      Shows (applyFresh thread fresh) fresh := by
  intro h
  obtain ⟨-, -, hpending⟩ := h loneThread emptied _ loneThread_wellFormed rfl (by simp [emptied])
  exact absurd hpending (by decide)

/-- The same row fetched again, and another. -/
def answered : Fresh ℕ Text := ⟨some [lone, ⟨1, false, [], [], ['c'], [], .ReadOnly⟩], [], by simp [lone]⟩

theorem applyFresh_keeps_edit_answered : ∃ nodes, (applyFresh loneThread answered).list = some nodes ∧
    List.Forall₂ (StandsFor ⟨0, lone, true, ['b'], by simp [lone]⟩)
      [lone, ⟨1, false, [], [], ['c'], [], .ReadOnly⟩] nodes := by
  obtain ⟨nodes, hnodes, hstands, -⟩ :=
    (applyFresh_keeps_edit answered loneThread_wellFormed rfl rfl (by simp [answered, lone])).1 _ rfl (by simp)
  exact ⟨nodes, hnodes, hstands⟩

end Home.Messagerie.LiveThread
