import ManageOurHome.Lib.Net

/-! @lib query strings | layer:library | family:parsing

    A query string as `form_urlencoded` reads and writes it: parts between `&`, each a key and a value around the
    first `=`, escapes taken as a parameter. And whole numbers as they stand in one.

        a=1&&b=x%26y   ⇒   (a, 1) (b, x&y) -/

namespace Query

/-- How a component is escaped, and read. -/
structure Coding where
  encode : List Char → List Char
  decode : List Char → List Char

/-- Neither a separator nor an escape. -/
def Plain (s : List Char) : Prop := ∀ c ∈ s, c ≠ '&' ∧ c ≠ '=' ∧ c ≠ '%' ∧ c ≠ '+'

instance (s : List Char) : Decidable (Plain s) := List.decidableBAll _ s

structure Coding.Lawful (coding : Coding) : Prop where
  decode_encode : ∀ s, coding.decode (coding.encode s) = s
  decode_plain : ∀ s, Plain s → coding.decode s = s
  encode_apart : ∀ s, '&' ∉ coding.encode s ∧ '=' ∉ coding.encode s

variable (coding : Coding)

/-- `form_urlencoded::parse`. -/
def parse (raw : List Char) : List (List Char × List Char) :=
  ((raw.splitOn '&').filter (· ≠ [])).map fun part =>
    (coding.decode (part.takeWhile (· ≠ '=')), coding.decode ((part.dropWhile (· ≠ '=')).drop 1))

/-- `form_urlencoded::Serializer`. -/
def serialize (pairs : List (List Char × List Char)) : List Char :=
  ['&'].intercalate (pairs.map fun p => coding.encode p.1 ++ '=' :: coding.encode p.2)

/-- The first occurrence of each key not yet seen. -/
def firstOccurrences : List (List Char) → List (List Char × List Char) → List (List Char × List Char)
  | _, [] => []
  | seen, p :: pairs => if p.1 ∈ seen then firstOccurrences seen pairs else p :: firstOccurrences (p.1 :: seen) pairs

/-- `i64`'s `Display`. -/
def writeI64 (n : ℤ) : List Char := if n < 0 then '-' :: Nat.toDigits 10 n.natAbs else Nat.toDigits 10 n.natAbs

/-- `i64`'s `FromStr`: a sign, digits, and no overflow. -/
def readI64 (s : List Char) : Option ℤ :=
  let digits := match s with
    | '-' :: rest => rest
    | '+' :: rest => rest
    | _ => s
  let magnitude : ℤ := Net.value 10 digits
  let n := if s.head? = some '-' then -magnitude else magnitude
  if digits ≠ [] ∧ (digits.all fun c => (Net.toDigit 10 c).isSome) ∧ -2 ^ 63 ≤ n ∧ n < 2 ^ 63 then some n else none

variable {coding} {key value rest s : List Char}

/-! ### Components -/

theorem Plain.amp (h : Plain s) : '&' ∉ s := fun hmem => (h _ hmem).1 rfl

theorem Plain.append (h : Plain s) (h' : Plain rest) : Plain (s ++ rest) := by
  intro c hc
  rcases List.mem_append.mp hc with hc | hc
  · exact h c hc
  · exact h' c hc

/-- A part with a key that has no `=` in it. -/
theorem split_part (hkey : '=' ∉ key) :
    (key ++ '=' :: value).takeWhile (· ≠ '=') = key ∧ ((key ++ '=' :: value).dropWhile (· ≠ '=')).drop 1 = value := by
  have hall : ∀ c ∈ key, decide (c ≠ '=') = true := by
    intro c hc
    exact decide_eq_true fun h => hkey (h ▸ hc)
  rw [List.takeWhile_append_of_pos hall, List.dropWhile_append_of_pos hall]
  simp

/-- The first part of a query. -/
theorem parse_cons (h : coding.Lawful) (hkey : Plain key) (hvalue : Plain value) :
    parse coding (key ++ '=' :: value ++ '&' :: rest) = (key, value) :: parse coding rest := by
  have hamp : '&' ∉ key ++ '=' :: value := by
    simp only [List.mem_append, List.mem_cons, not_or]
    exact ⟨hkey.amp, by decide, hvalue.amp⟩
  obtain ⟨htake, hdrop⟩ := @split_part key value fun hmem => (hkey _ hmem).2.1 rfl
  rw [parse, List.splitOn_append_cons_self_of_not_mem hamp, List.filter_cons_of_pos (by simp), List.map_cons, htake,
    hdrop, h.decode_plain _ hkey, h.decode_plain _ hvalue]
  rfl

/-- The last part of a query. -/
theorem parse_last (h : coding.Lawful) (hkey : Plain key) (hvalue : Plain value) :
    parse coding (key ++ '=' :: value) = [(key, value)] := by
  have hamp : '&' ∉ key ++ '=' :: value := by
    simp only [List.mem_append, List.mem_cons, not_or]
    exact ⟨hkey.amp, by decide, hvalue.amp⟩
  obtain ⟨htake, hdrop⟩ := @split_part key value fun hmem => (hkey _ hmem).2.1 rfl
  rw [parse, List.splitOn_eq_singleton hamp, List.filter_cons_of_pos (by simp), List.map_cons, htake, hdrop,
    h.decode_plain _ hkey, h.decode_plain _ hvalue]
  rfl

/-- ROUND TRIP: pairs written are read back. -/
theorem parse_serialize (h : coding.Lawful) (pairs : List (List Char × List Char)) :
    parse coding (serialize coding pairs) = pairs := by
  cases pairs with
  | nil => rfl
  | cons p pairs =>
    have hamp : ∀ part ∈ (p :: pairs).map fun p => coding.encode p.1 ++ '=' :: coding.encode p.2, '&' ∉ part := by
      intro part hpart
      obtain ⟨q, -, rfl⟩ := List.mem_map.mp hpart
      simp only [List.mem_append, List.mem_cons, not_or]
      exact ⟨(h.encode_apart _).1, by decide, (h.encode_apart _).1⟩
    have hfilter : ((p :: pairs).map fun p => coding.encode p.1 ++ '=' :: coding.encode p.2).filter (· ≠ []) =
        (p :: pairs).map fun p => coding.encode p.1 ++ '=' :: coding.encode p.2 := by
      rw [List.filter_eq_self]
      intro part hpart
      obtain ⟨q, -, rfl⟩ := List.mem_map.mp hpart
      simp
    rw [parse, serialize, List.splitOn_intercalate _ hamp (by simp), hfilter, List.map_map]
    refine (List.map_congr_left ?_).trans (List.map_id _)
    intro q _
    obtain ⟨htake, hdrop⟩ := @split_part _ (coding.encode q.2) (h.encode_apart q.1).2
    rw [Function.comp_apply, htake, hdrop, h.decode_encode, h.decode_encode]
    rfl

/-- Keys that differ are all kept. -/
theorem firstOccurrences_eq_self {pairs : List (List Char × List Char)} {seen : List (List Char)}
    (hnodup : (pairs.map (·.1)).Nodup) (hseen : ∀ p ∈ pairs, p.1 ∉ seen) : firstOccurrences seen pairs = pairs := by
  induction pairs generalizing seen with
  | nil => rfl
  | cons p pairs ih =>
    rw [List.map_cons, List.nodup_cons] at hnodup
    rw [firstOccurrences, if_neg (hseen p List.mem_cons_self), ih hnodup.2]
    intro q hq hmem
    rcases List.mem_cons.mp hmem with heq | hmem
    · exact hnodup.1 (heq ▸ List.mem_map_of_mem hq)
    · exact hseen q (List.mem_cons_of_mem _ hq) hmem

/-! ### Numbers -/

theorem toDigits_isDigit (n : ℕ) : ∀ c ∈ Nat.toDigits 10 n, (Net.toDigit 10 c).isSome :=
  (Net.toDigits_spec (by decide) (by decide) n).1

theorem toDigit_eq_none {c : Char} (hc : c = '-' ∨ c = '+' ∨ c = '&' ∨ c = '=' ∨ c = '%') : Net.toDigit 10 c = none := by
  rcases hc with rfl | rfl | rfl | rfl | rfl <;> rfl

theorem not_mem_toDigits {c : Char} (hc : c = '-' ∨ c = '+' ∨ c = '&' ∨ c = '=' ∨ c = '%') (n : ℕ) :
    c ∉ Nat.toDigits 10 n := by
  intro hmem
  have hdigit := toDigits_isDigit n c hmem
  rw [toDigit_eq_none hc] at hdigit
  exact absurd hdigit (by simp)

theorem plain_toDigits (n : ℕ) : Plain (Nat.toDigits 10 n) := by
  intro c hc
  refine ⟨?_, ?_, ?_, ?_⟩ <;> rintro rfl <;> exact not_mem_toDigits (by simp) n hc

theorem plain_writeI64 (n : ℤ) : Plain (writeI64 n) := by
  rw [writeI64]
  split
  · intro c hc
    rcases List.mem_cons.mp hc with rfl | hc
    · decide
    · exact plain_toDigits _ c hc
  · exact plain_toDigits _

/-- ROUND TRIP: a number that fits is read back. -/
theorem readI64_writeI64 {n : ℤ} (hlow : -2 ^ 63 ≤ n) (hhigh : n < 2 ^ 63) : readI64 (writeI64 n) = some n := by
  have hvalue : (Net.value 10 (Nat.toDigits 10 n.natAbs) : ℤ) = n.natAbs := by
    rw [(Net.toDigits_spec (by decide) (by decide) n.natAbs).2.1]
  have hdigits : (Nat.toDigits 10 n.natAbs).all fun c => (Net.toDigit 10 c).isSome :=
    List.all_eq_true.mpr (toDigits_isDigit _)
  have hne : Nat.toDigits 10 n.natAbs ≠ [] := Nat.toDigits_ne_nil
  rw [writeI64]
  split
  · rename_i hneg
    have hminus : -(n.natAbs : ℤ) = n := by omega
    simp only [readI64, List.head?_cons, if_true, hvalue, hminus]
    exact if_pos ⟨hne, hdigits, hlow, hhigh⟩
  · rename_i hpos
    have hplus : (n.natAbs : ℤ) = n := by omega
    have hhead : (Nat.toDigits 10 n.natAbs).head? ≠ some '-' := fun h =>
      not_mem_toDigits (by simp) _ (List.mem_of_mem_head? h)
    cases hs : Nat.toDigits 10 n.natAbs with
    | nil => exact absurd hs hne
    | cons c rest =>
      have hminus : c ≠ '-' := fun h => not_mem_toDigits (c := '-') (by simp) n.natAbs (by rw [hs, h]; simp)
      have hplusc : c ≠ '+' := fun h => not_mem_toDigits (c := '+') (by simp) n.natAbs (by rw [hs, h]; simp)
      rw [hs] at hvalue hdigits
      have hbody : (match c :: rest with
          | '-' :: rest => rest
          | '+' :: rest => rest
          | _ => c :: rest) = c :: rest := by
        split
        · rename_i h
          exact absurd (List.cons.inj h).1 hminus
        · rename_i h
          exact absurd (List.cons.inj h).1 hplusc
        · rfl
      have hsign : (c :: rest).head? ≠ some '-' := by
        rw [List.head?_cons, ne_eq, Option.some.injEq]
        exact hminus
      simp only [readI64, hbody, if_neg hsign, hvalue, hplus]
      exact if_pos ⟨by simp, hdigits, hlow, hhigh⟩

end Query
