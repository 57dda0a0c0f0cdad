import Mathlib.Data.List.Basic

/-! @lib markup | layer:library | family:HTML

    HTML as its tokenizer reads it, for the part of the language whose attributes stand between double quotes and whose
    character references are the four that escaped text needs; the rest of the language is refused. Elements and text,
    once written, are read back as their own tags and their own characters.

        data ──<──▶ tagOpen ──letter──▶ tagName ──space──▶ beforeAttributeName ──▶ … ──>──▶ data -/

namespace Markup

/-- What holds of all of a text is decided along it, not over every character. -/
instance (priority := high) decidableAll (s : List Char) (p : Char → Prop) [DecidablePred p] :
    Decidable (∀ c ∈ s, p c) :=
  List.decidableBAll p s

/-! ### The tokenizer -/

structure Tag where
  closing : Bool
  name : List Char
  attributes : List (List Char × List Char)
  deriving DecidableEq

inductive Token where
  | tag (t : Tag)
  | char (c : Char)
  deriving DecidableEq

/-- The states of the standard, with what has been read of the tag or of the reference. -/
inductive State where
  | data
  | tagOpen
  | endTagOpen
  | tagName (t : Tag)
  | beforeAttributeName (t : Tag)
  | attributeName (t : Tag) (attr : List Char)
  | beforeAttributeValue (t : Tag) (attr : List Char)
  | attributeValue (t : Tag) (attr value : List Char)
  | afterAttributeValue (t : Tag)
  | reference (ref : List Char)
  | valueReference (t : Tag) (attr value ref : List Char)
  deriving DecidableEq

def isLetter (c : Char) : Bool := ('a' ≤ c ∧ c ≤ 'z') ∨ ('A' ≤ c ∧ c ≤ 'Z')

def isSpace (c : Char) : Bool := c ∈ ['\t', '\n', '\x0c', ' ']

def lower (c : Char) : Char := if 'A' ≤ c ∧ c ≤ 'Z' then Char.ofNat (c.toNat + 32) else c

/-- A null character of a value is replaced. -/
def scrub (c : Char) : Char := if c = '\x00' then '\uFFFD' else c

/-- The references of escaped text. -/
def decode (ref : List Char) : Option Char :=
  if ref = ['a', 'm', 'p'] then some '&'
  else if ref = ['l', 't'] then some '<'
  else if ref = ['g', 't'] then some '>'
  else if ref = ['q', 'u', 'o', 't'] then some '"'
  else none

/-- What a character does in a state, and what is emitted. -/
def step : State → Char → Option (State × List Token)
  | .data, c =>
    if c = '<' then some (.tagOpen, [])
    else if c = '&' then some (.reference [], [])
    else some (.data, [.char c])
  | .tagOpen, c =>
    if c = '/' then some (.endTagOpen, [])
    else if isLetter c then some (.tagName ⟨false, [lower c], []⟩, [])
    else none
  | .endTagOpen, c => if isLetter c then some (.tagName ⟨true, [lower c], []⟩, []) else none
  | .tagName t, c =>
    if isSpace c then some (.beforeAttributeName t, [])
    else if c = '>' then some (.data, [.tag t])
    else if c = '/' ∨ c = '\x00' then none
    else some (.tagName { t with name := t.name ++ [lower c] }, [])
  | .beforeAttributeName t, c =>
    if isSpace c then some (.beforeAttributeName t, [])
    else if c = '>' then some (.data, [.tag t])
    else if isLetter c then some (.attributeName t [lower c], [])
    else none
  | .attributeName t attr, c =>
    if c = '=' then some (.beforeAttributeValue t attr, [])
    else if isLetter c then some (.attributeName t (attr ++ [lower c]), [])
    else none
  | .beforeAttributeValue t attr, c =>
    if isSpace c then some (.beforeAttributeValue t attr, [])
    else if c = '"' then some (.attributeValue t attr [], [])
    else none
  | .attributeValue t attr value, c =>
    if c = '"' then some (.afterAttributeValue { t with attributes := t.attributes ++ [(attr, value)] }, [])
    else if c = '&' then some (.valueReference t attr value [], [])
    else some (.attributeValue t attr (value ++ [scrub c]), [])
  | .afterAttributeValue t, c =>
    if isSpace c then some (.beforeAttributeName t, [])
    else if c = '>' then some (.data, [.tag t])
    else none
  | .reference ref, c =>
    if c = ';' then (decode ref).map fun d => (.data, [.char d])
    else if isLetter c then some (.reference (ref ++ [c]), [])
    else none
  | .valueReference t attr value ref, c =>
    if c = ';' then (decode ref).map fun d => (.attributeValue t attr (value ++ [d]), [])
    else if isLetter c then some (.valueReference t attr value (ref ++ [c]), [])
    else none

def read (s : State) : List Char → Option (State × List Token)
  | [] => some (s, [])
  | c :: cs => (step s c).bind fun (s', tokens) => (read s' cs).map fun (last, rest) => (last, tokens ++ rest)

attribute [grind =] step read

/-- The tokens of a text that does not end inside of a tag or of a reference. -/
def tokenize (text : List Char) : Option (List Token) :=
  (read .data text).bind fun (last, tokens) => if last = .data then some tokens else none

/-- Every tag that is opened is closed, the last one first. -/
def Balanced : List (List Char) → List Token → Prop
  | stack, [] => stack = []
  | stack, .char _ :: tokens => Balanced stack tokens
  | stack, .tag t :: tokens =>
    if t.closing then ∃ kept, stack = t.name :: kept ∧ Balanced kept tokens else Balanced (t.name :: stack) tokens

def textOf (tokens : List Token) : List Char :=
  tokens.filterMap fun
    | .char c => some c
    | .tag _ => none

/-! ### Writing -/

def escapeChar (c : Char) : List Char :=
  if c = '&' then ['&', 'a', 'm', 'p', ';']
  else if c = '<' then ['&', 'l', 't', ';']
  else if c = '>' then ['&', 'g', 't', ';']
  else if c = '"' then ['&', 'q', 'u', 'o', 't', ';']
  else [c]

def escape (s : List Char) : List Char := s.flatMap escapeChar

/-- Elements and text, one after the other. -/
inductive Forest where
  | nil
  | text (t : List Char) (rest : Forest)
  | element (name : List Char) (attributes : List (List Char × List Char)) (inner rest : Forest)

namespace Forest

def append : Forest → Forest → Forest
  | .nil, g => g
  | .text t rest, g => .text t (rest.append g)
  | .element name attributes inner rest, g => .element name attributes inner (rest.append g)

/-- Forests one after the other. -/
def concat : List Forest → Forest
  | [] => .nil
  | f :: fs => f.append (concat fs)

def writeAttribute (a : List Char × List Char) : List Char := ' ' :: a.1 ++ '=' :: '"' :: escape a.2 ++ ['"']

def write : Forest → List Char
  | .nil => []
  | .text t rest => escape t ++ rest.write
  | .element name attributes inner rest =>
    '<' :: name ++ attributes.flatMap writeAttribute ++ '>' :: inner.write ++ '<' :: '/' :: name ++ '>' :: rest.write

def tokens : Forest → List Token
  | .nil => []
  | .text t rest => t.map .char ++ rest.tokens
  | .element name attributes inner rest =>
    .tag ⟨false, name, attributes.map fun a => (a.1, a.2.map scrub)⟩ :: inner.tokens ++ .tag ⟨true, name, []⟩ :: rest.tokens

/-- What holds of every element. -/
def Each (P : List Char → List (List Char × List Char) → Prop) : Forest → Prop
  | .nil => True
  | .text _ rest => rest.Each P
  | .element name attributes inner rest => P name attributes ∧ inner.Each P ∧ rest.Each P

def plain : Forest → List Char
  | .nil => []
  | .text t rest => t ++ rest.plain
  | .element _ _ inner rest => inner.plain ++ rest.plain

attribute [grind =] append concat write tokens Each plain

end Forest

/-- A name as tags and attributes have them here. -/
structure Name (n : List Char) : Prop where
  ne_nil : n ≠ []
  head : ∀ c ∈ n.head?, 'a' ≤ c ∧ c ≤ 'z'
  tail : ∀ c ∈ n, ('a' ≤ c ∧ c ≤ 'z') ∨ ('0' ≤ c ∧ c ≤ '9')

/-- A name of letters alone. -/
def Letters (n : List Char) : Prop := n ≠ [] ∧ ∀ c ∈ n, 'a' ≤ c ∧ c ≤ 'z'

/-- An element that can be written. -/
def Wellformed (name : List Char) (attributes : List (List Char × List Char)) : Prop :=
  Name name ∧ ∀ a ∈ attributes, Letters a.1

variable {s s' s'' : State} {u v n value attr : List Char} {ts ts' : List Token} {c : Char} {t : Tag} {f g : Forest}

/-! ### Reading what is written -/

/-- From one state to another over `u`, whatever follows. -/
def Reads (s : State) (u : List Char) (s' : State) (ts : List Token) : Prop :=
  ∀ rest, read s (u ++ rest) = (read s' rest).map fun (last, more) => (last, ts ++ more)

theorem Reads.nil (s : State) : Reads s [] s [] := by
  intro rest
  rw [List.nil_append]
  cases read s rest <;> rfl

theorem Reads.char (h : step s c = some (s', ts)) : Reads s [c] s' ts := by
  intro rest
  rw [List.singleton_append, read, h]
  rfl

theorem Reads.append (h : Reads s u s' ts) (h' : Reads s' v s'' ts') : Reads s (u ++ v) s'' (ts ++ ts') := by
  intro rest
  rw [List.append_assoc, h, h', Option.map_map]
  refine congrArg (Option.map · _) (funext fun p => ?_)
  exact Prod.ext rfl (List.append_assoc ts ts' p.2).symm

theorem Reads.cons (h : step s c = some (s', ts)) (h' : Reads s' v s'' ts') : Reads s (c :: v) s'' (ts ++ ts') :=
  (Reads.char h).append h'

theorem isLetter_lower (h : 'a' ≤ c ∧ c ≤ 'z') : isLetter c = true := decide_eq_true (.inl h)

theorem lower_eq (h : 'a' ≤ c) : lower c = c := by
  rw [lower, if_neg]
  rintro ⟨-, hc⟩
  exact absurd (Char.le_trans h hc) (by decide)

/-- What a character of a name is not. -/
theorem plain_of_name (h : ('a' ≤ c ∧ c ≤ 'z') ∨ ('0' ≤ c ∧ c ≤ '9')) :
    isSpace c = false ∧ c ≠ '>' ∧ ¬(c = '/' ∨ c = '\x00') ∧ lower c = c := by
  have hne : ∀ d : Char, ¬(('a' ≤ d ∧ d ≤ 'z') ∨ ('0' ≤ d ∧ d ≤ '9')) → c ≠ d := by
    rintro d hd rfl
    exact hd h
  refine ⟨?_, hne _ (by decide), ?_, ?_⟩
  · rw [isSpace, decide_eq_false_iff_not]
    intro hmem
    simp only [List.mem_cons, List.not_mem_nil, or_false] at hmem
    rcases hmem with h | h | h | h <;> exact hne _ (by decide) h
  · rintro (h | h) <;> exact hne _ (by decide) h
  · rcases h with h | h
    · exact lower_eq h.1
    · rw [lower, if_neg]
      rintro ⟨hc, -⟩
      exact absurd (Char.le_trans hc h.2) (by decide)

theorem Reads.tagName (h : ∀ c ∈ n, ('a' ≤ c ∧ c ≤ 'z') ∨ ('0' ≤ c ∧ c ≤ '9')) (t : Tag) :
    Reads (.tagName t) n (.tagName { t with name := t.name ++ n }) [] := by
  induction n generalizing t with
  | nil =>
    rw [List.append_nil]
    exact .nil _
  | cons c n ih =>
    obtain ⟨hc, hn⟩ := List.forall_mem_cons.mp h
    obtain ⟨hspace, hend, hstop, hlower⟩ := plain_of_name hc
    have hstep : step (.tagName t) c = some (.tagName { t with name := t.name ++ [c] }, []) := by
      simp only [step, hspace, hend, hstop, hlower, if_false, Bool.false_eq_true]
    have hrest := ih hn { t with name := t.name ++ [c] }
    rw [List.append_assoc, List.singleton_append] at hrest
    exact .cons hstep hrest

/-- A tag up to the end of its name. -/
theorem Reads.open (h : Name n) : Reads .data ('<' :: n) (.tagName ⟨false, n, []⟩) [] := by
  obtain ⟨c, n, rfl⟩ := List.exists_cons_of_ne_nil h.ne_nil
  have hc := h.head c rfl
  have hne : c ≠ '/' := by
    rintro rfl
    exact absurd hc.1 (by decide)
  have hstep : step .tagOpen c = some (.tagName ⟨false, [c], []⟩, []) := by
    simp only [step, hne, isLetter_lower hc, lower_eq hc.1, if_false, if_true]
  have hstart : step .data '<' = some (.tagOpen, []) := rfl
  exact .cons hstart (.cons hstep (Reads.tagName (fun d hd => h.tail d (List.mem_cons_of_mem _ hd)) ⟨false, [c], []⟩))

theorem Reads.close (h : Name n) : Reads .data ('<' :: '/' :: n ++ ['>']) .data [.tag ⟨true, n, []⟩] := by
  obtain ⟨c, n, rfl⟩ := List.exists_cons_of_ne_nil h.ne_nil
  have hc := h.head c rfl
  have hstep : step .endTagOpen c = some (.tagName ⟨true, [c], []⟩, []) := by
    simp only [step, isLetter_lower hc, lower_eq hc.1, if_true]
  have hname := Reads.tagName (fun d hd => h.tail d (List.mem_cons_of_mem _ hd)) ⟨true, [c], []⟩
  have hstart : step .data '<' = some (.tagOpen, []) := rfl
  have hslash : step .tagOpen '/' = some (.endTagOpen, []) := rfl
  have hend : step (.tagName ⟨true, c :: n, []⟩) '>' = some (.data, [.tag ⟨true, c :: n, []⟩]) := rfl
  exact .cons hstart (.cons hslash (.cons hstep (hname.append (.char hend))))

/-- The cases of escaping. -/
theorem escapeChar_cases (c : Char) :
    (∃ ref, escapeChar c = '&' :: ref ++ [';'] ∧ decode ref = some c ∧ ∀ d ∈ ref, isLetter d = true) ∨
      (escapeChar c = [c] ∧ c ≠ '&' ∧ c ≠ '<' ∧ c ≠ '"') := by
  by_cases hamp : c = '&'
  · exact .inl ⟨['a', 'm', 'p'], by subst hamp; decide⟩
  by_cases hlt : c = '<'
  · exact .inl ⟨['l', 't'], by subst hlt; decide⟩
  by_cases hgt : c = '>'
  · exact .inl ⟨['g', 't'], by subst hgt; decide⟩
  by_cases hquot : c = '"'
  · exact .inl ⟨['q', 'u', 'o', 't'], by subst hquot; decide⟩
  exact .inr ⟨by rw [escapeChar, if_neg hamp, if_neg hlt, if_neg hgt, if_neg hquot], hamp, hlt, hquot⟩

theorem ne_semicolon (h : isLetter c = true) : c ≠ ';' := by
  rintro rfl
  cases h

theorem Reads.reference (h : ∀ d ∈ n, isLetter d = true) (ref : List Char) (hdecode : decode (ref ++ n) = some c) :
    Reads (.reference ref) (n ++ [';']) .data [.char c] := by
  induction n generalizing ref with
  | nil =>
    rw [List.append_nil] at hdecode
    refine .char ?_
    rw [step, if_pos rfl, hdecode]
    rfl
  | cons d n ih =>
    obtain ⟨hd, hn⟩ := List.forall_mem_cons.mp h
    have hstep : step (.reference ref) d = some (.reference (ref ++ [d]), []) := by
      rw [step, if_neg (ne_semicolon hd), if_pos hd]
    exact .cons hstep (ih hn (ref ++ [d]) (by rw [List.append_assoc]; exact hdecode))

theorem Reads.valueReference (h : ∀ d ∈ n, isLetter d = true) (ref : List Char) (hdecode : decode (ref ++ n) = some c) :
    Reads (.valueReference t attr value ref) (n ++ [';']) (.attributeValue t attr (value ++ [c])) [] := by
  induction n generalizing ref with
  | nil =>
    rw [List.append_nil] at hdecode
    refine .char ?_
    rw [step, if_pos rfl, hdecode]
    rfl
  | cons d n ih =>
    obtain ⟨hd, hn⟩ := List.forall_mem_cons.mp h
    have hstep : step (.valueReference t attr value ref) d = some (.valueReference t attr value (ref ++ [d]), []) := by
      rw [step, if_neg (ne_semicolon hd), if_pos hd]
    exact .cons hstep (ih hn (ref ++ [d]) (by rw [List.append_assoc]; exact hdecode))

/-- Escaped text is read as itself. -/
theorem Reads.escape (s : List Char) : Reads .data (escape s) .data (s.map .char) := by
  induction s with
  | nil => exact .nil _
  | cons c s ih =>
    have hchar : Reads .data (escapeChar c) .data [.char c] := by
      rcases escapeChar_cases c with ⟨ref, hescape, hdecode, hletters⟩ | ⟨hescape, hamp, hlt, -⟩
      · have hstart : step .data '&' = some (.reference [], []) := rfl
        rw [hescape]
        exact .cons hstart (Reads.reference hletters [] hdecode)
      · rw [hescape]
        exact .char (by rw [step, if_neg hlt, if_neg hamp])
    exact hchar.append ih

theorem scrub_of_decode (h : decode n = some c) : scrub c = c := by
  rw [scrub, if_neg]
  rintro rfl
  unfold decode at h
  split_ifs at h <;> exact absurd (Option.some.inj h) (by decide)

/-- An escaped value is read as itself but for the null characters. -/
theorem Reads.quoted (s : List Char) (value : List Char) :
    Reads (.attributeValue t attr value) (Markup.escape s) (.attributeValue t attr (value ++ s.map scrub)) [] := by
  induction s generalizing value with
  | nil =>
    rw [List.map_nil, List.append_nil]
    exact .nil _
  | cons c s ih =>
    have hchar : Reads (.attributeValue t attr value) (escapeChar c) (.attributeValue t attr (value ++ [scrub c])) [] := by
      rcases escapeChar_cases c with ⟨ref, hescape, hdecode, hletters⟩ | ⟨hescape, hamp, -, hquot⟩
      · have hstart : step (.attributeValue t attr value) '&' = some (.valueReference t attr value [], []) := rfl
        rw [hescape, scrub_of_decode hdecode]
        exact .cons hstart (Reads.valueReference hletters [] hdecode)
      · rw [hescape]
        exact .char (by rw [step, if_neg hquot, if_neg hamp])
    have hrest := ih (value ++ [scrub c])
    rw [List.append_assoc, List.singleton_append] at hrest
    exact hchar.append hrest

theorem Reads.attributeName (h : ∀ c ∈ n, 'a' ≤ c ∧ c ≤ 'z') (t : Tag) (attr : List Char) :
    Reads (.attributeName t attr) n (.attributeName t (attr ++ n)) [] := by
  induction n generalizing attr with
  | nil =>
    rw [List.append_nil]
    exact .nil _
  | cons c n ih =>
    obtain ⟨hc, hn⟩ := List.forall_mem_cons.mp h
    have hne : c ≠ '=' := by
      rintro rfl
      exact absurd hc (by decide)
    have hstep : step (.attributeName t attr) c = some (.attributeName t (attr ++ [c]), []) := by
      rw [step, if_neg hne, if_pos (isLetter_lower hc), lower_eq hc.1]
    have hrest := ih hn (attr ++ [c])
    rw [List.append_assoc, List.singleton_append] at hrest
    exact .cons hstep hrest

/-- From the name of a tag, or from its last attribute. -/
theorem Reads.attribute {a : List Char × List Char} (h : Letters a.1) (hs : s = .tagName t ∨ s = .afterAttributeValue t) :
    Reads s (Forest.writeAttribute a)
      (.afterAttributeValue { t with attributes := t.attributes ++ [(a.1, a.2.map scrub)] }) [] := by
  obtain ⟨⟨⟩ | ⟨c, n⟩, value⟩ := a
  · exact absurd rfl h.1
  obtain ⟨hc, hn⟩ := List.forall_mem_cons.mp h.2
  have hspace : step s ' ' = some (.beforeAttributeName t, []) := by
    rcases hs with rfl | rfl <;> rfl
  have hfirst : step (.beforeAttributeName t) c = some (.attributeName t [c], []) := by
    obtain ⟨hblank, hend, -, hlower⟩ := plain_of_name (.inl hc)
    simp only [step, hblank, hend, hlower, isLetter_lower hc, if_false, if_true, Bool.false_eq_true]
  have hname := Reads.attributeName hn t [c]
  have hequals : step (.attributeName t (c :: n)) '=' = some (.beforeAttributeValue t (c :: n), []) := rfl
  have hstart : step (.beforeAttributeValue t (c :: n)) '"' = some (.attributeValue t (c :: n) [], []) := rfl
  have hvalue : Reads (.attributeValue t (c :: n) []) (Markup.escape value) (.attributeValue t (c :: n) (value.map scrub)) [] :=
    Reads.quoted value []
  have hquote : step (.attributeValue t (c :: n) (value.map scrub)) '"' =
      some (.afterAttributeValue { t with attributes := t.attributes ++ [(c :: n, value.map scrub)] }, []) := rfl
  have hwrite : Forest.writeAttribute (c :: n, value) = ' ' :: c :: (n ++ ('=' :: '"' :: (Markup.escape value ++ ['"']))) := by
    simp [Forest.writeAttribute]
  rw [hwrite]
  exact .cons hspace (.cons hfirst (hname.append (.cons hequals (.cons hstart (hvalue.append (.char hquote))))))

/-- What is left of a tag after its name. -/
theorem Reads.attributes {attributes : List (List Char × List Char)} (h : ∀ a ∈ attributes, Letters a.1)
    (hs : s = .tagName t ∨ s = .afterAttributeValue t) : Reads s (attributes.flatMap Forest.writeAttribute ++ ['>']) .data
      [.tag { t with attributes := t.attributes ++ attributes.map fun a => (a.1, a.2.map scrub) }] := by
  induction attributes generalizing s t with
  | nil =>
    rw [List.map_nil, List.append_nil]
    refine .char ?_
    rcases hs with rfl | rfl <;> rfl
  | cons a attributes ih =>
    obtain ⟨ha, hattributes⟩ := List.forall_mem_cons.mp h
    have hrest := ih (t := { t with attributes := t.attributes ++ [(a.1, a.2.map scrub)] }) hattributes (.inr rfl)
    rw [List.append_assoc, List.singleton_append] at hrest
    rw [List.flatMap_cons, List.append_assoc, List.map_cons]
    exact (Reads.attribute ha hs).append hrest

theorem Reads.forest (h : f.Each Wellformed) : Reads .data f.write .data f.tokens := by
  induction f with
  | nil => exact .nil _
  | text t rest ih => exact (Reads.escape t).append (ih h)
  | element name attributes inner rest ihInner ihRest =>
    obtain ⟨⟨hname, hattributes⟩, hinner, hrest⟩ := h
    have hopen := (Reads.open hname).append (Reads.attributes hattributes (.inl rfl))
    have hall := hopen.append ((ihInner hinner).append ((Reads.close hname).append (ihRest hrest)))
    simpa [Forest.write, Forest.tokens] using hall

/-- What is written is read back, as its own tags and its own characters. -/
theorem tokenize_write (h : f.Each Wellformed) : tokenize f.write = some f.tokens := by
  have hread := Reads.forest h []
  rw [List.append_nil, read, Option.map_some] at hread
  simp only [List.append_nil] at hread
  rw [tokenize, hread, Option.bind_some]
  exact if_pos rfl

/-! ### What the tokens of a forest are -/

theorem balanced_tokens (f : Forest) (stack : List (List Char)) (ts : List Token) :
    Balanced stack (f.tokens ++ ts) ↔ Balanced stack ts := by
  induction f generalizing stack ts with
  | nil => rfl
  | text t rest ih =>
    rw [Forest.tokens, List.append_assoc]
    induction t with
    | nil => exact ih stack ts
    | cons c t iht => exact iht
  | element name attributes inner rest ihInner ihRest =>
    rw [Forest.tokens, List.cons_append, List.cons_append, Balanced, if_neg Bool.false_ne_true, List.append_assoc, ihInner,
      List.cons_append, Balanced, if_pos rfl]
    constructor
    · rintro ⟨kept, heq, hkept⟩
      obtain rfl := (List.cons.inj heq).2
      exact (ihRest stack ts).mp hkept
    · exact fun hts => ⟨stack, rfl, (ihRest stack ts).mpr hts⟩

theorem textOf_append (ts ts' : List Token) : textOf (ts ++ ts') = textOf ts ++ textOf ts' := List.filterMap_append

theorem textOf_tokens (f : Forest) : textOf f.tokens = f.plain := by
  induction f with
  | nil => rfl
  | text t rest ih =>
    rw [Forest.tokens, textOf_append, ih, Forest.plain]
    refine congrArg (· ++ _) ?_
    rw [textOf, List.filterMap_map]
    exact List.filterMap_some
  | element name attributes inner rest ihInner ihRest =>
    show textOf (inner.tokens ++ .tag ⟨true, name, []⟩ :: rest.tokens) = _
    rw [textOf_append, ihInner]
    exact congrArg (inner.plain ++ ·) ihRest

theorem tag_of_char {tag : Tag} (h : Token.tag tag ∈ u.map Token.char) : False := by
  obtain ⟨c, -, hc⟩ := List.mem_map.mp h
  cases hc

/-- What holds of the opening tags holds of the elements. -/
theorem opening_iff {Q : Tag → Prop} : (∀ tag, .tag tag ∈ f.tokens → tag.closing = false → Q tag) ↔
    f.Each fun name attributes => Q ⟨false, name, attributes.map fun a => (a.1, a.2.map scrub)⟩ := by
  induction f with
  | nil => simp [Forest.tokens, Forest.Each]
  | text t rest ih =>
    rw [Forest.Each, ← ih]
    refine forall_congr' fun tag => imp_congr_left ?_
    rw [Forest.tokens, List.mem_append]
    exact ⟨fun h => h.resolve_left tag_of_char, .inr⟩
  | element name attributes inner rest ihInner ihRest =>
    rw [Forest.Each, ← ihInner, ← ihRest]
    simp only [Forest.tokens, List.cons_append, List.mem_cons, List.mem_append, Token.tag.injEq]
    constructor
    · intro h
      exact ⟨h _ (.inl rfl) rfl, fun tag ht => h tag (.inr (.inl ht)), fun tag ht => h tag (.inr (.inr (.inr ht)))⟩
    · rintro ⟨hname, hinner, hrest⟩ tag (rfl | ht | rfl | ht) hopen
      · exact hname
      · exact hinner tag ht hopen
      · cases hopen
      · exact hrest tag ht hopen

/-- What holds of the names of the tags holds of the names of the elements. -/
theorem names_of_each {R : List Char → Prop} (h : f.Each fun name _ => R name) : ∀ tag, .tag tag ∈ f.tokens → R tag.name := by
  induction f with
  | nil => simp [Forest.tokens]
  | text t rest ih =>
    intro tag ht
    rw [Forest.tokens, List.mem_append] at ht
    exact ih h tag (ht.resolve_left tag_of_char)
  | element name attributes inner rest ihInner ihRest =>
    obtain ⟨hname, hinner, hrest⟩ := h
    intro tag ht
    simp only [Forest.tokens, List.cons_append, List.mem_cons, List.mem_append, Token.tag.injEq] at ht
    rcases ht with rfl | ht | rfl | ht
    · exact hname
    · exact ihInner hinner tag ht
    · exact hname
    · exact ihRest hrest tag ht

/-! ### One forest after another -/

theorem write_append (f g : Forest) : (f.append g).write = f.write ++ g.write := by
  induction f with
  | nil => rfl
  | text t rest ih => rw [Forest.append, Forest.write, Forest.write, ih, List.append_assoc]
  | element name attributes inner rest _ ih => simp [Forest.append, Forest.write, ih]

theorem plain_append (f g : Forest) : (f.append g).plain = f.plain ++ g.plain := by
  induction f with
  | nil => rfl
  | text t rest ih => rw [Forest.append, Forest.plain, Forest.plain, ih, List.append_assoc]
  | element name attributes inner rest _ ih => rw [Forest.append, Forest.plain, Forest.plain, ih, List.append_assoc]

theorem each_append {P : List Char → List (List Char × List Char) → Prop} :
    (f.append g).Each P ↔ f.Each P ∧ g.Each P := by
  induction f with
  | nil => simp [Forest.append, Forest.Each]
  | text t rest ih => rw [Forest.append, Forest.Each, Forest.Each, ih]
  | element name attributes inner rest _ ih => rw [Forest.append, Forest.Each, Forest.Each, ih, and_assoc, and_assoc]

theorem write_concat (fs : List Forest) : (Forest.concat fs).write = fs.flatMap Forest.write := by
  induction fs with
  | nil => rfl
  | cons f fs ih => rw [Forest.concat, write_append, ih, List.flatMap_cons]

theorem plain_concat (fs : List Forest) : (Forest.concat fs).plain = fs.flatMap Forest.plain := by
  induction fs with
  | nil => rfl
  | cons f fs ih => rw [Forest.concat, plain_append, ih, List.flatMap_cons]

theorem each_concat {P : List Char → List (List Char × List Char) → Prop} {fs : List Forest} :
    (Forest.concat fs).Each P ↔ ∀ f ∈ fs, f.Each P := by
  induction fs with
  | nil => simp [Forest.concat, Forest.Each]
  | cons f fs ih => rw [Forest.concat, each_append, ih, List.forall_mem_cons]

/-! ### What escaping leaves -/

/-- A character that is not escaped. -/
def Unescaped (d : Char) : Prop := escapeChar d = [d]

theorem escape_append (u v : List Char) : escape (u ++ v) = escape u ++ escape v := List.flatMap_append

theorem escape_cons (h : Unescaped c) (v : List Char) : escape (c :: v) = c :: escape v := by
  rw [escape, List.flatMap_cons, h]
  rfl

/-- What is not escaped is the start of nothing else. -/
theorem head_escapeChar {d : Char} (hd : Unescaped d) (h : c ≠ d) : ∃ x u, escapeChar c = x :: u ∧ x ≠ d := by
  rcases escapeChar_cases c with ⟨ref, hescape, -, -⟩ | ⟨hescape, -⟩
  · refine ⟨'&', ref ++ [';'], hescape, ?_⟩
    rintro rfl
    exact absurd hd (by unfold Unescaped; decide)
  · exact ⟨c, [], hescape, h⟩

theorem isPrefixOf_escape {needle : List Char} (h : ∀ d ∈ needle, Unescaped d) (s : List Char) :
    needle.isPrefixOf (escape s) = needle.isPrefixOf s := by
  induction needle generalizing s with
  | nil => rw [List.isPrefixOf, List.isPrefixOf]
  | cons d needle ih =>
    obtain ⟨hd, hneedle⟩ := List.forall_mem_cons.mp h
    cases s with
    | nil => rfl
    | cons c s =>
      by_cases hc : c = d
      · subst hc
        rw [escape_cons hd, List.isPrefixOf, List.isPrefixOf, ih hneedle]
      · obtain ⟨x, u, hescape, hx⟩ := head_escapeChar hd hc
        rw [escape, List.flatMap_cons, hescape, List.cons_append, List.isPrefixOf, List.isPrefixOf]
        rw [beq_false_of_ne (Ne.symm hx), beq_false_of_ne (Ne.symm hc), Bool.false_and, Bool.false_and]

theorem escape_of_unescaped (h : ∀ d ∈ u, Unescaped d) : escape u = u := by
  induction u with
  | nil => rfl
  | cons d u ih =>
    obtain ⟨hd, hu⟩ := List.forall_mem_cons.mp h
    rw [escape_cons hd, ih hu]

end Markup
