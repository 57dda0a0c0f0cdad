import ManageOurHome.Lib.Nesting
import ManageOurHome.Recipes.HtmlSlices
import ManageOurHome.Recipes.PageEnds

/-! @src apps/api/src/recipes/html.rs | layer:proof | family:text of a page

    `match_ends` on the tokens of any page: the stack before each token holds the elements open there, so extents are
    disjoint or nested, and an end tag closes the innermost element of its name with all that it holds. As it is
    run, over a vector of ends, no index is past the end.

        <ul><li>un<li>deux</ul>     0 ↦ 5   1 ↦ 3   3 ↦ 5 -/

namespace Home.Recipes.Html

open Nesting

/-! ### As it is run -/

/-- The variables of `match_ends`; `ends` is a vector, whose index past the end is a panic. -/
structure Matcher where
  stack : List (ℕ × Text)
  opened : Text → List ℕ
  ends : List ℕ

/-- `ends[start] = pos`. -/
def setEnd (ends : List ℕ) (start pos : ℕ) : Option (List ℕ) :=
  if start < ends.length then some (ends.set start pos) else none

/-- `close_down_to`. -/
def Matcher.closeFrom (depth pos : ℕ) : List (ℕ × Text) → (Text → List ℕ) → List ℕ → Option Matcher
  | [], opened, ends => some ⟨[], opened, ends⟩
  | (start, name) :: below, opened, ends =>
    if depth < below.length + 1 then
      (setEnd ends start pos).bind fun ends =>
        closeFrom depth pos below (Function.update opened name (opened name).tail) ends
    else some ⟨(start, name) :: below, opened, ends⟩

def Matcher.closeDownTo (m : Matcher) (depth pos : ℕ) : Option Matcher :=
  Matcher.closeFrom depth pos m.stack m.opened m.ends

def Matcher.innermost (m : Matcher) (name : Text) : Option ℕ := (m.opened name).head?

def Matcher.closeItem (m : Matcher) (pos : ℕ) (name : Text) : Option Matcher :=
  if name = li then
    let list := max (m.innermost ul) (m.innermost ol)
    match (m.innermost li).filter fun item => list.all (· < item) with
    | some item => m.closeDownTo item pos
    | none => some m
  else some m

def Matcher.closeParagraph (m : Matcher) (pos : ℕ) (name : Text) : Option Matcher :=
  if name ∈ CLOSES_P ∧ m.stack.head?.any (·.2 = p) then m.closeDownTo (m.stack.length - 1) pos else some m

def Matcher.push (m : Matcher) (pos : ℕ) (name : Text) : Matcher where
  stack := (pos, name) :: m.stack
  opened := Function.update m.opened name (m.stack.length :: m.opened name)
  ends := m.ends

def Matcher.step (m : Matcher) (pos : ℕ) : Token → Option Matcher
  | .start name _ =>
    if name ∈ VOID then (setEnd m.ends pos pos).map fun ends => { m with ends := ends }
    else ((m.closeItem pos name).bind fun m => m.closeParagraph pos name).map fun m => m.push pos name
  | .endTag name =>
    match m.innermost name with
    | some depth => m.closeDownTo depth pos
    | none => some m
  | .text _ => some m

def Matcher.run (m : Matcher) (pos : ℕ) : List Token → Option Matcher
  | [] => some m
  | token :: tokens => (m.step pos token).bind fun m => m.run (pos + 1) tokens

/-- `match_ends`. -/
def matchEndsVec (tokens : List Token) : Option (List ℕ) := do
  let m ← (⟨[], fun _ => [], List.replicate tokens.length 0⟩ : Matcher).run 0 tokens
  let m ← m.closeDownTo 0 tokens.length
  return m.ends

/-- A `Document`, its tokens as slices of the page. -/
structure PageDocument where
  tokens : List PageToken
  ends : List ℕ

/-- `Document::parse`. -/
def parseSlices (html : Text) : Option PageDocument := do
  let tokens ← tokenizeSlices html
  let ends ← matchEndsVec (tokens.map PageToken.token)
  return ⟨tokens, ends⟩

/-! ### What a step closes -/

/-- The elements `popped` are closed at `pos`, innermost first, and nothing else changes. -/
structure Pops (m m' : Matching) (pos : ℕ) (popped : List (ℕ × Text)) : Prop where
  stack : m.stack = popped ++ m'.stack
  closed : ∀ x ∈ popped, m'.ends x.1 = pos
  kept : ∀ i, i ∉ popped.map Prod.fst → m'.ends i = m.ends i
  consistent : Consistent m'

section Pops

variable {m m₁ m₂ : Matching} {pos depth : ℕ} {popped popped' : List (ℕ × Text)} {name : Text}

theorem Consistent.pops_nil (h : Consistent m) (pos : ℕ) : Pops m m pos [] :=
  ⟨rfl, fun _ hx => absurd hx List.not_mem_nil, fun _ _ => rfl, h⟩

theorem Pops.trans (h : Pops m m₁ pos popped) (h' : Pops m₁ m₂ pos popped') : Pops m m₂ pos (popped ++ popped') := by
  refine ⟨by rw [h.stack, h'.stack, List.append_assoc], fun x hx => ?_, fun i hi => ?_, h'.consistent⟩
  · by_cases hin : x.1 ∈ popped'.map Prod.fst
    · obtain ⟨y, hy, heq⟩ := List.mem_map.mp hin
      rw [← heq, h'.closed y hy]
    · have hx := (List.mem_append.mp hx).resolve_right fun hx => hin (List.mem_map_of_mem hx)
      rw [h'.kept _ hin, h.closed x hx]
  · rw [List.map_append, List.mem_append, not_or] at hi
    rw [h'.kept i hi.2, h.kept i hi.1]

theorem Consistent.closeDownTo (h : Consistent m) (depth pos : ℕ) :
    (∃ popped, Pops m (m.closeDownTo depth pos) pos popped) ∧
      (m.closeDownTo depth pos).stack.length = min depth m.stack.length := by
  obtain ⟨stack, opened, ends⟩ := m
  change (∃ popped, Pops ⟨stack, opened, ends⟩ (Html.closeDownTo depth pos stack opened ends) pos popped) ∧
    (Html.closeDownTo depth pos stack opened ends).stack.length = min depth stack.length
  induction stack generalizing opened ends with
  | nil => exact ⟨⟨[], h.pops_nil pos⟩, (Nat.min_zero depth).symm⟩
  | cons top below ih =>
    obtain ⟨start, name⟩ := top
    rw [Html.closeDownTo]
    split
    · rename_i hdepth
      have hbelow : Pops ⟨(start, name) :: below, opened, ends⟩
          ⟨below, Function.update opened name (opened name).tail, Function.update ends start pos⟩ pos
          [(start, name)] := by
        refine ⟨rfl, fun x hx => ?_, fun i hi => ?_, fun found => ?_⟩
        · rw [List.mem_singleton.mp hx]
          exact Function.update_self _ _ _
        · exact Function.update_of_ne (by simpa using hi) _ _
        · have hfound := h found
          change opened found = depths found ((start, name) :: below) at hfound
          change Function.update opened name (opened name).tail found = depths found below
          rw [depths] at hfound
          by_cases hname : found = name
          · subst hname
            rw [Function.update_self, hfound, if_pos rfl, List.tail_cons]
          · rw [Function.update_of_ne hname, hfound, if_neg (Ne.symm hname)]
      obtain ⟨⟨popped, hpopped⟩, hlength⟩ := ih _ _ hbelow.consistent
      refine ⟨⟨_, hbelow.trans hpopped⟩, ?_⟩
      rw [hlength, List.length_cons]
      omega
    · rename_i hdepth
      refine ⟨⟨[], h.pops_nil pos⟩, ?_⟩
      change (below.length + 1) = min depth (below.length + 1)
      omega

theorem Consistent.closeItem (h : Consistent m) (pos : ℕ) (name : Text) :
    ∃ popped, Pops m (m.closeItem pos name) pos popped := by
  rw [Matching.closeItem]
  split
  · dsimp only
    split
    · rename_i item _
      exact (h.closeDownTo item pos).1
    · exact ⟨[], h.pops_nil pos⟩
  · exact ⟨[], h.pops_nil pos⟩

theorem Consistent.closeParagraph (h : Consistent m) (pos : ℕ) (name : Text) :
    ∃ popped, Pops m (m.closeParagraph pos name) pos popped := by
  rw [Matching.closeParagraph]
  split
  · exact (h.closeDownTo _ pos).1
  · exact ⟨[], h.pops_nil pos⟩

/-- All that a token does: a void element ends where it starts, another start closes some elements and opens its own,
    and any other token closes some. -/
theorem Consistent.step_cases (h : Consistent m) (pos : ℕ) (token : Token) :
    (∃ name attributes, token = .start name attributes ∧ name ∈ VOID ∧
      m.step pos token = { m with ends := Function.update m.ends pos pos }) ∨
    (∃ name attributes m₁ popped, token = .start name attributes ∧ name ∉ VOID ∧ Pops m m₁ pos popped ∧
      m.step pos token = m₁.push pos name) ∨
    ((∀ name attributes, token ≠ .start name attributes) ∧ ∃ popped, Pops m (m.step pos token) pos popped) := by
  cases token with
  | start name attributes =>
    by_cases hvoid : name ∈ VOID
    · exact .inl ⟨name, attributes, rfl, hvoid, by rw [Matching.step, if_pos hvoid]⟩
    · obtain ⟨popped, hitem⟩ := h.closeItem pos name
      obtain ⟨popped', hparagraph⟩ := hitem.consistent.closeParagraph pos name
      exact .inr (.inl ⟨name, attributes, _, _, rfl, hvoid, hitem.trans hparagraph, by rw [Matching.step, if_neg hvoid]⟩)
  | endTag name =>
    refine .inr (.inr ⟨fun _ _ heq => (by cases heq), ?_⟩)
    rw [Matching.step]
    split
    · rename_i depth _
      exact (h.closeDownTo depth pos).1
    · exact ⟨[], h.pops_nil pos⟩
  | text t => exact .inr (.inr ⟨fun _ _ heq => (by cases heq), [], h.pops_nil pos⟩)

theorem Consistent.step (h : Consistent m) (pos : ℕ) (token : Token) : Consistent (m.step pos token) := by
  rcases h.step_cases pos token with ⟨name, attributes, -, -, hstep⟩ | ⟨name, attributes, m₁, popped, -, -, hpops, hstep⟩ |
    ⟨-, popped, hpops⟩
  · rw [hstep]
    exact h
  · rw [hstep]
    exact hpops.consistent.push pos name
  · exact hpops.consistent

/-- How deep the innermost element of a name is. -/
theorem head_depths {stack : List (ℕ × Text)} (h : (depths name stack).head? = some depth) :
    ∃ above start below, stack = above ++ (start, name) :: below ∧ below.length = depth ∧ ∀ x ∈ above, x.2 ≠ name := by
  induction stack with
  | nil => cases h
  | cons top stack ih =>
    obtain ⟨start, found⟩ := top
    rw [depths] at h
    split at h
    · rename_i hfound
      subst hfound
      exact ⟨[], start, stack, rfl, Option.some.inj h, fun x hx => absurd hx List.not_mem_nil⟩
    · rename_i hfound
      obtain ⟨above, start', below, rfl, hlength, habove⟩ := ih h
      exact ⟨(start, found) :: above, start', below, rfl, hlength, List.forall_mem_cons.mpr ⟨hfound, habove⟩⟩

theorem head_depths_eq_none {stack : List (ℕ × Text)} (h : (depths name stack).head? = none) :
    ∀ x ∈ stack, x.2 ≠ name := by
  induction stack with
  | nil => exact fun x hx => absurd hx List.not_mem_nil
  | cons top stack ih =>
    obtain ⟨start, found⟩ := top
    rw [depths] at h
    split at h
    · cases h
    · rename_i hfound
      exact List.forall_mem_cons.mpr ⟨hfound, ih h⟩

/-- An end tag closes the innermost element of its name and those above it, or nothing. -/
theorem Consistent.step_endTag_cases (h : Consistent m) (pos : ℕ) (name : Text) :
    (∃ above start, m.stack = above ++ (start, name) :: (m.step pos (.endTag name)).stack ∧
      ∀ x ∈ above, x.2 ≠ name) ∨
    ((m.step pos (.endTag name)).stack = m.stack ∧ ∀ x ∈ m.stack, x.2 ≠ name) := by
  have hinner : m.innermost name = (depths name m.stack).head? := by rw [Matching.innermost, h name]
  cases hhead : (depths name m.stack).head? with
  | none =>
    refine .inr ⟨?_, head_depths_eq_none hhead⟩
    simp only [Matching.step, hinner, hhead]
  | some depth =>
    obtain ⟨above, start, below, hstack, hlength, habove⟩ := head_depths hhead
    obtain ⟨⟨popped, hpops⟩, hclosed⟩ := h.closeDownTo depth pos
    have hstep : m.step pos (.endTag name) = m.closeDownTo depth pos := by simp only [Matching.step, hinner, hhead]
    have hbelow : (m.closeDownTo depth pos).stack = below := by
      have hall := hpops.stack
      rw [hstack, ← List.singleton_append, ← List.append_assoc] at hall
      refine (List.append_inj_right' hall ?_).symm
      rw [hclosed, hstack, List.length_append, List.length_cons]
      omega
    refine .inl ⟨above, start, ?_, habove⟩
    rw [hstep, hbelow, hstack]

end Pops

/-! ### The stacks of a page -/

section Before

variable {tokens : List Token} {k s : ℕ} {name : Text}

/-- The matching before the token at `k`. -/
def before (tokens : List Token) (k : ℕ) : Matching := Matching.init.run 0 (tokens.take k)

/-- The elements open there, innermost first. -/
def openBefore (tokens : List Token) (k : ℕ) : List ℕ := (before tokens k).stack.map Prod.fst

theorem before_succ (hk : k < tokens.length) :
    before tokens (k + 1) = (before tokens k).step k tokens[k] := by
  rw [before, before, List.take_add_one, Matching.run_append, List.length_take_of_le hk.le, Nat.zero_add,
    List.getElem?_eq_getElem hk]
  rfl

theorem consistent_before (hk : k ≤ tokens.length) : Consistent (before tokens k) := by
  induction k with
  | zero => exact consistent_init
  | succ k ih =>
    rw [before_succ hk]
    exact (ih (Nat.le_of_succ_le hk)).step k _

/-- What the token at `k` does. -/
theorem before_cases (hk : k < tokens.length) :
    (∃ name attributes, tokens[k] = .start name attributes ∧ name ∈ VOID ∧
      before tokens (k + 1) = { before tokens k with ends := Function.update (before tokens k).ends k k }) ∨
    (∃ name attributes m popped, tokens[k] = .start name attributes ∧ name ∉ VOID ∧ Pops (before tokens k) m k popped ∧
      before tokens (k + 1) = m.push k name) ∨
    ((∀ name attributes, tokens[k] ≠ .start name attributes) ∧
      ∃ popped, Pops (before tokens k) (before tokens (k + 1)) k popped) := by
  rw [before_succ hk]
  exact (consistent_before hk.le).step_cases k _

theorem stacks_openBefore (tokens : List Token) : Stacks tokens.length (openBefore tokens) := by
  refine ⟨rfl, fun k hk => ?_⟩
  rcases before_cases hk with ⟨name, attributes, -, -, hnext⟩ | ⟨name, attributes, m, popped, -, -, hpops, hnext⟩ |
    ⟨-, popped, hpops⟩
  · refine ⟨[], openBefore tokens k, rfl, .inl ?_⟩
    rw [openBefore, hnext, openBefore]
  · refine ⟨popped.map Prod.fst, m.stack.map Prod.fst, ?_, .inr ?_⟩
    · rw [openBefore, hpops.stack, List.map_append]
    · rw [openBefore, hnext]
      rfl
  · refine ⟨popped.map Prod.fst, openBefore tokens (k + 1), ?_, .inl rfl⟩
    rw [openBefore, hpops.stack, List.map_append, openBefore]

/-- The end of an element that is not open is not changed. -/
theorem ends_succ (hk : k < tokens.length) (hs : s < k) (hclosed : s ∉ openBefore tokens k) :
    (before tokens (k + 1)).ends s = (before tokens k).ends s := by
  have hpopped : ∀ {m popped}, Pops (before tokens k) m k popped → s ∉ popped.map Prod.fst := by
    intro m popped hpops hin
    refine hclosed ?_
    rw [openBefore, hpops.stack, List.map_append]
    exact List.mem_append_left _ hin
  rcases before_cases hk with ⟨name, attributes, -, -, hnext⟩ | ⟨name, attributes, m, popped, -, -, hpops, hnext⟩ |
    ⟨-, popped, hpops⟩
  · rw [hnext]
    exact Function.update_of_ne hs.ne _ _
  · rw [hnext]
    exact hpops.kept s (hpopped hpops)
  · exact hpops.kept s (hpopped hpops)

theorem pops_last (tokens : List Token) :
    ∃ popped, popped = (before tokens tokens.length).stack ∧ (∀ x ∈ popped, matchEnds tokens x.1 = tokens.length) ∧
      ∀ i, i ∉ popped.map Prod.fst → matchEnds tokens i = (before tokens tokens.length).ends i := by
  have hbefore : before tokens tokens.length = Matching.init.run 0 tokens := by rw [before, List.take_length]
  have hlast := consistent_before (le_refl tokens.length)
  obtain ⟨⟨popped, hpops⟩, hlength⟩ := hlast.closeDownTo 0 tokens.length
  rw [Nat.zero_min, List.length_eq_zero_iff] at hlength
  refine ⟨popped, ?_, ?_, ?_⟩
  · rw [hpops.stack, hlength, List.append_nil]
  · rw [matchEnds, ← hbefore]
    exact hpops.closed
  · rw [matchEnds, ← hbefore]
    exact hpops.kept

/-- The end of an element that is closed is settled. -/
theorem matchEnds_of_closed (hk : k ≤ tokens.length) (hs : s < k) (hclosed : s ∉ openBefore tokens k) :
    matchEnds tokens s = (before tokens k).ends s := by
  induction hk using Nat.decreasingInduction with
  | self =>
    obtain ⟨popped, hpopped, -, hkept⟩ := pops_last tokens
    exact hkept s (hpopped ▸ hclosed)
  | of_succ k hk ih =>
    rw [← ends_succ hk hs hclosed]
    refine ih (Nat.lt_succ_of_lt hs) fun hin => ?_
    obtain ⟨popped, kept, hstack, hnext⟩ := (stacks_openBefore tokens).step k hk
    rw [hstack] at hclosed
    have hkept : s ∈ kept := by
      rcases hnext with hnext | hnext
      · exact hnext ▸ hin
      · rw [hnext] at hin
        exact (List.mem_cons.mp hin).resolve_left hs.ne
    exact hclosed (List.mem_append_right _ hkept)

/-- The elements of a page are opened and closed by a stack. -/
theorem run_openBefore (tokens : List Token) : Run tokens.length (openBefore tokens) (matchEnds tokens) := by
  refine ⟨stacks_openBefore tokens, fun k hk s hs hpopped => ?_, fun s hs => ?_⟩
  · have hlt := ((stacks_openBefore tokens).sorted hk.le).2 s hs
    rw [matchEnds_of_closed hk (Nat.lt_succ_of_lt hlt) hpopped]
    have hclosed : ∀ {m popped}, Pops (before tokens k) m k popped → s ∉ m.stack.map Prod.fst → m.ends s = k := by
      intro m popped hpops hstack
      rw [openBefore, hpops.stack, List.map_append, List.mem_append] at hs
      obtain ⟨x, hx, rfl⟩ := List.mem_map.mp (hs.resolve_right hstack)
      exact hpops.closed x hx
    rcases before_cases hk with ⟨name, attributes, -, -, hnext⟩ | ⟨name, attributes, m, popped, -, -, hpops, hnext⟩ |
      ⟨-, popped, hpops⟩
    · rw [openBefore, hnext] at hpopped
      exact absurd hs hpopped
    · rw [openBefore, hnext] at hpopped
      rw [hnext]
      change m.ends s = k
      exact hclosed hpops fun hin => hpopped (List.mem_cons_of_mem _ hin)
    · exact hclosed hpops hpopped
  · obtain ⟨popped, hpopped, hends, -⟩ := pops_last tokens
    rw [openBefore, ← hpopped] at hs
    obtain ⟨x, hx, rfl⟩ := List.mem_map.mp hs
    exact hends x hx

/-- What is on the stack is a start tag read before, of no void element. -/
theorem start_of_mem (hk : k ≤ tokens.length) (h : (s, name) ∈ (before tokens k).stack) :
    name ∉ VOID ∧ ∃ attributes, tokens[s]? = some (.start name attributes) := by
  induction k with
  | zero => exact absurd h List.not_mem_nil
  | succ k ih =>
    have hpops : ∀ {m popped}, Pops (before tokens k) m k popped → (s, name) ∈ m.stack →
        (s, name) ∈ (before tokens k).stack := by
      intro m popped hpops hin
      rw [hpops.stack]
      exact List.mem_append_right _ hin
    rcases before_cases hk with ⟨found, attributes, -, -, hnext⟩ |
      ⟨found, attributes, m, popped, htoken, hvoid, hm, hnext⟩ | ⟨-, popped, hm⟩
    · rw [hnext] at h
      exact ih (Nat.le_of_succ_le hk) h
    · rw [hnext] at h
      rcases List.mem_cons.mp h with heq | h
      · obtain ⟨rfl, rfl⟩ := Prod.mk.inj heq
        exact ⟨hvoid, attributes, by rw [List.getElem?_eq_getElem hk, htoken]⟩
      · exact ih (Nat.le_of_succ_le hk) (hpops hm h)
    · exact ih (Nat.le_of_succ_le hk) (hpops hm h)

end Before

/-! ### No index is past the end -/

section Matcher

variable {m : Matching} {n pos : ℕ}

/-- A matching whose ends are the vector of the first `n`. -/
def Matching.matcher (m : Matching) (n : ℕ) : Matcher := ⟨m.stack, m.opened, (List.range n).map m.ends⟩

theorem setEnd_map {start : ℕ} (hstart : start < n) (ends : ℕ → ℕ) (pos : ℕ) :
    setEnd ((List.range n).map ends) start pos = some ((List.range n).map (Function.update ends start pos)) := by
  rw [setEnd, if_pos (by simpa using hstart)]
  refine congrArg some (List.ext_getElem (by simp) fun i hi _ => ?_)
  rw [List.getElem_set, List.getElem_map, List.getElem_map, List.getElem_range]
  by_cases heq : start = i
  · subst heq
    rw [if_pos rfl, Function.update_self]
  · rw [if_neg heq, Function.update_of_ne (Ne.symm heq)]

theorem Matching.matcher_closeDownTo (depth pos : ℕ) (hlt : ∀ x ∈ m.stack, x.1 < n) :
    (m.matcher n).closeDownTo depth pos = some ((m.closeDownTo depth pos).matcher n) := by
  obtain ⟨stack, opened, ends⟩ := m
  change Matcher.closeFrom depth pos stack opened ((List.range n).map ends) =
    some ((Html.closeDownTo depth pos stack opened ends).matcher n)
  induction stack generalizing opened ends with
  | nil => rfl
  | cons top below ih =>
    obtain ⟨start, name⟩ := top
    obtain ⟨hstart, hbelow⟩ := List.forall_mem_cons.mp hlt
    rw [Matcher.closeFrom, Html.closeDownTo]
    split
    · rw [setEnd_map hstart, Option.bind_some]
      exact ih _ _ hbelow
    · rfl

theorem Matching.matcher_closeItem (pos : ℕ) (name : Text) (hlt : ∀ x ∈ m.stack, x.1 < n) :
    (m.matcher n).closeItem pos name = some ((m.closeItem pos name).matcher n) := by
  have hinner : ∀ found, (m.matcher n).innermost found = m.innermost found := fun _ => rfl
  rw [Matcher.closeItem, Matching.closeItem]
  simp only [hinner]
  by_cases hname : name = li
  · rw [if_pos hname, if_pos hname]
    cases (m.innermost li).filter fun item => (max (m.innermost ul) (m.innermost ol)).all (· < item) with
    | none => rfl
    | some item => exact m.matcher_closeDownTo item pos hlt
  · rw [if_neg hname, if_neg hname]

theorem Matching.matcher_closeParagraph (pos : ℕ) (name : Text) (hlt : ∀ x ∈ m.stack, x.1 < n) :
    (m.matcher n).closeParagraph pos name = some ((m.closeParagraph pos name).matcher n) := by
  have hstack : (m.matcher n).stack = m.stack := rfl
  rw [Matcher.closeParagraph, Matching.closeParagraph, hstack]
  split
  · exact m.matcher_closeDownTo _ pos hlt
  · rfl

theorem Matching.matcher_step (h : Consistent m) (token : Token) (hlt : ∀ x ∈ m.stack, x.1 < n) (hpos : pos < n) :
    (m.matcher n).step pos token = some ((m.step pos token).matcher n) := by
  cases token with
  | start name attributes =>
    rw [Matcher.step, Matching.step]
    by_cases hvoid : name ∈ VOID
    · have hends : (m.matcher n).ends = (List.range n).map m.ends := rfl
      rw [if_pos hvoid, if_pos hvoid, hends, setEnd_map hpos]
      rfl
    · obtain ⟨popped, hpops⟩ := h.closeItem pos name
      have hlt' : ∀ x ∈ (m.closeItem pos name).stack, x.1 < n := fun x hx =>
        hlt x (hpops.stack ▸ List.mem_append_right _ hx)
      rw [if_neg hvoid, if_neg hvoid, m.matcher_closeItem pos name hlt, Option.bind_some,
        Matching.matcher_closeParagraph pos name hlt']
      rfl
  | endTag name =>
    have hinner : (m.matcher n).innermost name = m.innermost name := rfl
    simp only [Matcher.step, Matching.step, hinner]
    cases m.innermost name with
    | none => rfl
    | some depth => exact m.matcher_closeDownTo depth pos hlt
  | text t => rfl

end Matcher

section Run

variable {tokens : List Token} {n k : ℕ}

theorem lt_of_mem_before {x : ℕ × Text} (hk : k ≤ tokens.length) (hx : x ∈ (before tokens k).stack) : x.1 < k :=
  ((stacks_openBefore tokens).sorted hk).2 x.1 (List.mem_map_of_mem hx)

/-- The tokens left, from the one at `k`. -/
theorem matcher_run (hk : k ≤ tokens.length) :
    ((before tokens k).matcher tokens.length).run k (tokens.drop k) =
      some ((before tokens tokens.length).matcher tokens.length) := by
  induction hk using Nat.decreasingInduction with
  | self =>
    rw [List.drop_length]
    rfl
  | of_succ k hk ih =>
    have hlt : ∀ x ∈ (before tokens k).stack, x.1 < tokens.length := fun x hx =>
      (lt_of_mem_before hk.le hx).trans hk
    rw [List.drop_eq_getElem_cons hk, Matcher.run, Matching.matcher_step (consistent_before hk.le) _ hlt hk,
      Option.bind_some, ← before_succ hk]
    exact ih

theorem matchEndsVec_eq (tokens : List Token) :
    matchEndsVec tokens = some ((List.range tokens.length).map (matchEnds tokens)) := by
  have hinit : (⟨[], fun _ => [], List.replicate tokens.length 0⟩ : Matcher) =
      (before tokens 0).matcher tokens.length := by
    have hzero : List.replicate tokens.length 0 = (List.range tokens.length).map fun _ => 0 := by
      rw [List.map_const', List.length_range]
    rw [hzero]
    rfl
  have hrun := matcher_run (Nat.zero_le tokens.length)
  rw [List.drop_zero] at hrun
  have hlast : before tokens tokens.length = Matching.init.run 0 tokens := by rw [before, List.take_length]
  rw [matchEndsVec, hinit, hrun, Option.bind_eq_bind, Option.bind_some,
    Matching.matcher_closeDownTo 0 tokens.length fun x hx => lt_of_mem_before le_rfl hx, hlast]
  rfl

end Run

/-! ### Extents -/

def Document.ElementAt (d : Document) (s : ℕ) (name : Text) : Prop :=
  ∃ attributes, d.tokens[s]? = some (.start name attributes)

/-- An element started before the token at `k`, which ends there or later. -/
def Document.OpenAt (d : Document) (k s : ℕ) : Prop := (∃ name, d.ElementAt s name) ∧ s < k ∧ k ≤ d.endOf s

/-- The innermost element of a name that is open there. -/
def Document.InnermostAt (d : Document) (k : ℕ) (name : Text) (i : ℕ) : Prop :=
  (d.OpenAt k i ∧ d.ElementAt i name) ∧ ∀ j, d.OpenAt k j → d.ElementAt j name → j ≤ i

/-- The extents are well nested. -/
structure Document.Nested (d : Document) : Prop where
  void : ∀ s name, d.ElementAt s name → name ∈ VOID → d.endOf s = s
  extent : ∀ s name, d.ElementAt s name → name ∉ VOID → s < d.endOf s ∧ d.endOf s ≤ d.tokens.length
  /-- Of two elements, one ends before the other starts, or holds it. -/
  nested : ∀ i j, (∃ name, d.ElementAt i name) → (∃ name, d.ElementAt j name) → i < j →
    d.endOf i ≤ j ∨ d.endOf j ≤ d.endOf i
  /-- An end tag closes the innermost open element of its name and those opened since, and no other. -/
  endTag : ∀ k name, d.tokens[k]? = some (.endTag name) → ∀ s, d.OpenAt k s →
    (d.endOf s = k ↔ ∃ i, d.InnermostAt k name i ∧ i ≤ s)
  /-- What closes an element closes all that started in it. -/
  closed : ∀ a s, (∃ name, d.ElementAt a name) → (∃ name, d.ElementAt s name) → a < s → s < d.endOf a →
    ∀ k, d.endOf a < k → ¬ d.OpenAt k s

section Extents

variable {tokens : List Token} {k s : ℕ} {name : Text} {d : Document}

theorem Document.ElementAt.unique {name' : Text} (h : d.ElementAt s name) (h' : d.ElementAt s name') : name = name' := by
  obtain ⟨attributes, h⟩ := h
  obtain ⟨attributes', h'⟩ := h'
  rw [h] at h'
  exact (Token.start.inj (Option.some.inj h')).1

theorem Document.ElementAt.lt (h : d.ElementAt s name) : s < d.tokens.length := by
  obtain ⟨attributes, h⟩ := h
  exact (List.getElem?_eq_some_iff.mp h).1

/-- The document of some tokens. -/
def documentOf (tokens : List Token) : Document := ⟨tokens, matchEnds tokens⟩

theorem endOf_void (h : (documentOf tokens).ElementAt s name) (hvoid : name ∈ VOID) :
    s ∉ openBefore tokens (s + 1) ∧ matchEnds tokens s = s := by
  have hs : s < tokens.length := h.lt
  obtain ⟨attributes, htoken⟩ := h
  have hget : tokens[s] = .start name attributes := (List.getElem?_eq_some_iff.mp htoken).2
  have hnext : before tokens (s + 1) = { before tokens s with ends := Function.update (before tokens s).ends s s } := by
    rw [before_succ hs, hget, Matching.step, if_pos hvoid]
  have hclosed : s ∉ openBefore tokens (s + 1) := fun hin => by
    rw [openBefore, hnext] at hin
    exact Nat.lt_irrefl s (((stacks_openBefore tokens).sorted hs.le).2 s hin)
  refine ⟨hclosed, ?_⟩
  rw [matchEnds_of_closed hs (Nat.lt_succ_self s) hclosed, hnext]
  exact Function.update_self _ _ _

theorem mem_openBefore_self (h : (documentOf tokens).ElementAt s name) (hvoid : name ∉ VOID) :
    s ∈ openBefore tokens (s + 1) := by
  have hs : s < tokens.length := h.lt
  obtain ⟨attributes, htoken⟩ := h
  have hget : tokens[s] = .start name attributes := (List.getElem?_eq_some_iff.mp htoken).2
  rw [openBefore, before_succ hs, hget, Matching.step, if_neg hvoid]
  exact List.mem_cons_self

/-- The elements open before a token are those on the stack. -/
theorem openAt_iff (hk : k ≤ tokens.length) : (documentOf tokens).OpenAt k s ↔ s ∈ openBefore tokens k := by
  have hrun := run_openBefore tokens
  constructor
  · rintro ⟨⟨name, h⟩, hlt, hle⟩
    change k ≤ matchEnds tokens s at hle
    have hvoid : name ∉ VOID := fun hvoid => by
      rw [(endOf_void h hvoid).2] at hle
      omega
    exact (hrun.mem_iff (mem_openBefore_self h hvoid) hlt hk).mpr hle
  · intro hs
    obtain ⟨⟨start, name⟩, hin, rfl⟩ := List.mem_map.mp hs
    obtain ⟨-, attributes, htoken⟩ := start_of_mem hk hin
    exact ⟨⟨name, attributes, htoken⟩, (hrun.sorted hk).2 _ hs, (hrun.le_ends hk hs).1⟩

/-- An element on the stack stands there under its name. -/
theorem mem_before (hk : k ≤ tokens.length) (h : (documentOf tokens).OpenAt k s)
    (hname : (documentOf tokens).ElementAt s name) : (s, name) ∈ (before tokens k).stack := by
  obtain ⟨⟨start, found⟩, hin, rfl⟩ := List.mem_map.mp ((openAt_iff hk).mp h)
  obtain ⟨-, attributes, htoken⟩ := start_of_mem hk hin
  have hfound : (documentOf tokens).ElementAt start found := ⟨attributes, htoken⟩
  exact hname.unique hfound ▸ hin

theorem nested_of_lt {i j : ℕ} (hi : ∃ name, (documentOf tokens).ElementAt i name)
    (hj : ∃ name, (documentOf tokens).ElementAt j name) (hij : i < j) (hin : j < matchEnds tokens i) :
    matchEnds tokens j ≤ matchEnds tokens i := by
  obtain ⟨name, hi⟩ := hi
  obtain ⟨name', hj⟩ := hj
  by_cases hvoid : name ∈ VOID
  · rw [(endOf_void hi hvoid).2] at hin
    omega
  · by_cases hvoid' : name' ∈ VOID
    · rw [(endOf_void hj hvoid').2]
      exact hin.le
    · exact (run_openBefore tokens).nested (mem_openBefore_self hi hvoid) (mem_openBefore_self hj hvoid') hj.lt hij hin

/-- What an end tag closes. -/
theorem endOf_endTag (htoken : tokens[k]? = some (.endTag name)) (hs : (documentOf tokens).OpenAt k s) :
    matchEnds tokens s = k ↔ ∃ i, (documentOf tokens).InnermostAt k name i ∧ i ≤ s := by
  obtain ⟨hk, hget⟩ := List.getElem?_eq_some_iff.mp htoken
  have hrun := run_openBefore tokens
  have hmem := (openAt_iff hk.le).mp hs
  have hpopped : matchEnds tokens s = k ↔ s ∉ openBefore tokens (k + 1) := by
    refine ⟨fun hend hin => ?_, hrun.pop k hk s hmem⟩
    have hle := (hrun.le_ends hk hin).1
    omega
  have hnext : openBefore tokens (k + 1) = ((before tokens k).step k (.endTag name)).stack.map Prod.fst := by
    rw [openBefore, before_succ hk, hget]
  have hsorted := (hrun.sorted hk.le).1
  rw [hpopped, hnext]
  obtain ⟨above, start, hstack, habove⟩ | ⟨hstack, hnone⟩ := (consistent_before hk.le).step_endTag_cases k name
  · rw [openBefore, hstack, List.map_append, List.map_cons] at hsorted hmem
    obtain ⟨-, hbelow, hbefore⟩ := List.pairwise_append.mp hsorted
    obtain ⟨hstart, -⟩ := List.pairwise_cons.mp hbelow
    have hin : (start, name) ∈ (before tokens k).stack := by
      rw [hstack]
      exact List.mem_append_right _ List.mem_cons_self
    have hinner : (documentOf tokens).InnermostAt k name start := by
      obtain ⟨-, helement⟩ := start_of_mem hk.le hin
      refine ⟨⟨(openAt_iff hk.le).mpr (List.mem_map_of_mem hin), helement⟩, fun j hj hname => ?_⟩
      have hj := mem_before hk.le hj hname
      rw [hstack] at hj
      rcases List.mem_append.mp hj with hj | hj
      · exact absurd rfl (habove _ hj)
      · rcases List.mem_cons.mp hj with heq | hj
        · exact (Prod.mk.inj heq).1.le
        · exact (hstart j (List.mem_map_of_mem hj)).le
    constructor
    · intro hclosed
      refine ⟨start, hinner, ?_⟩
      rcases List.mem_append.mp hmem with hmem | hmem
      · exact (hbefore s hmem start List.mem_cons_self).le
      · rcases List.mem_cons.mp hmem with rfl | hmem
        · exact le_rfl
        · exact absurd hmem hclosed
    · rintro ⟨i, hi, hle⟩ hstill
      have hlt := hstart s hstill
      have hge := hi.2 start hinner.1.1 hinner.1.2
      omega
  · rw [hstack]
    refine iff_of_false (fun hclosed => hclosed hmem) ?_
    rintro ⟨i, ⟨⟨hopen, hname⟩, -⟩, -⟩
    exact hnone _ (mem_before hk.le hopen hname) rfl

theorem nested_documentOf (tokens : List Token) : (documentOf tokens).Nested where
  void s name h hvoid := (endOf_void h hvoid).2
  extent s name h hvoid := (run_openBefore tokens).le_ends h.lt (mem_openBefore_self h hvoid)
  nested i j hi hj hij := by
    by_cases hin : j < matchEnds tokens i
    · exact .inr (nested_of_lt hi hj hij hin)
    · exact .inl (Nat.not_lt.mp hin)
  endTag k name htoken s hs := endOf_endTag htoken hs
  closed a s ha hs has hin k hk hopen := by
    have hle := nested_of_lt ha hs has hin
    have hge : k ≤ matchEnds tokens s := hopen.2.2
    change matchEnds tokens a < k at hk
    omega

end Extents

/-- Every page is parsed: its tokens stand in it, each has its extent, and the extents are well nested. -/
theorem parse_nested (html : Text) :
    ∃ page : PageDocument, parseSlices html = some page ∧
      page.tokens.map PageToken.token = (Document.parse html).tokens ∧
      page.ends = (List.range page.tokens.length).map (Document.parse html).endOf ∧
      Placed html page.tokens ∧ (Document.parse html).Nested := by
  obtain ⟨tokens, hrun, htokens, hplaced⟩ := tokenizeSlices_tokenized html
  have hends := matchEndsVec_eq (tokens.map PageToken.token)
  rw [List.length_map] at hends
  refine ⟨⟨tokens, (List.range tokens.length).map (matchEnds (tokens.map PageToken.token))⟩, ?_, htokens, ?_, hplaced,
    nested_documentOf (tokenize html)⟩
  · rw [parseSlices, hrun, Option.bind_eq_bind, Option.bind_some, hends]
    rfl
  · rw [htokens]
    rfl

end Home.Recipes.Html
