import Mathlib.Algebra.BigOperators.Group.List.Basic
import Mathlib.Algebra.GroupWithZero.Nat
import Mathlib.Data.List.Basic
import Mathlib.Data.List.TakeWhile

/-! @lib strings by their bytes | layer:library | family:text

    A string is its characters, and its UTF-8 bytes are what it is sliced by: a slice past the end, or inside of a
    character, is none. What cuts a string between two characters is found again by the bytes before it.

        é t é   bytes 0 2 3 5     [2..3] = t     [1..3] none -/

namespace Utf8

/-- The number of bytes. -/
def size (s : List Char) : ℕ := (s.map Char.utf8Size).sum

def bytes (s : List Char) : List UInt8 := s.flatMap String.utf8EncodeChar

/-- What follows the first `n` bytes. -/
def dropBytes : List Char → ℕ → Option (List Char)
  | s, 0 => some s
  | [], _ + 1 => none
  | c :: s, n + 1 => if c.utf8Size ≤ n + 1 then dropBytes s (n + 1 - c.utf8Size) else none

/-- The first `n` bytes. -/
def takeBytes : List Char → ℕ → Option (List Char)
  | _, 0 => some []
  | [], _ + 1 => none
  | c :: s, n + 1 => if c.utf8Size ≤ n + 1 then (takeBytes s (n + 1 - c.utf8Size)).map (c :: ·) else none

/-- The bytes from `lo` to `hi`. -/
def slice (s : List Char) (lo hi : ℕ) : Option (List Char) :=
  if lo ≤ hi then (dropBytes s lo).bind fun rest => takeBytes rest (hi - lo) else none

/-- Where the first character that satisfies `p` is. -/
def find (p : Char → Bool) (s : List Char) : Option ℕ :=
  if s.any p then some (size (s.takeWhile fun c => !p c)) else none

/-- Where `pat` first is. -/
def findStr (pat : List Char) : List Char → Option ℕ
  | [] => if pat = [] then some 0 else none
  | c :: s => if pat <+: c :: s then some 0 else (findStr pat s).map fun n => c.utf8Size + n

variable {s pre m rest : List Char} {c : Char} {p : Char → Bool} {n : ℕ}

/-! ### Sizes -/

@[simp] theorem size_nil : size [] = 0 := rfl

@[simp] theorem size_cons (c : Char) (s : List Char) : size (c :: s) = c.utf8Size + size s := by
  rw [size, List.map_cons, List.sum_cons, size]

@[simp] theorem size_append (s t : List Char) : size (s ++ t) = size s + size t := by
  rw [size, List.map_append, List.sum_append, size, size]

theorem size_pos (h : s ≠ []) : 0 < size s := by
  cases s with
  | nil => exact absurd rfl h
  | cons c s =>
    have hc := c.utf8Size_pos
    rw [size_cons]
    omega

theorem length_bytes (s : List Char) : (bytes s).length = size s := by
  induction s with
  | nil => rfl
  | cons c s ih =>
    rw [bytes, List.flatMap_cons, List.length_append, String.length_utf8EncodeChar, size_cons, ← ih, bytes]

/-! ### Slices -/

@[simp] theorem dropBytes_zero (s : List Char) : dropBytes s 0 = some s := by cases s <;> rfl

@[simp] theorem takeBytes_zero (s : List Char) : takeBytes s 0 = some [] := by cases s <;> rfl

theorem dropBytes_append (pre rest : List Char) : dropBytes (pre ++ rest) (size pre) = some rest := by
  induction pre with
  | nil => exact dropBytes_zero rest
  | cons c pre ih =>
    have hc := c.utf8Size_pos
    obtain ⟨n, hn⟩ : ∃ n, size (c :: pre) = n + 1 := ⟨size (c :: pre) - 1, by rw [size_cons]; omega⟩
    rw [size_cons] at hn
    rw [size_cons, hn, List.cons_append, dropBytes, if_pos (by omega)]
    have hrest : n + 1 - c.utf8Size = size pre := by omega
    rw [hrest, ih]

theorem takeBytes_append (pre rest : List Char) : takeBytes (pre ++ rest) (size pre) = some pre := by
  induction pre with
  | nil => exact takeBytes_zero rest
  | cons c pre ih =>
    have hc := c.utf8Size_pos
    obtain ⟨n, hn⟩ : ∃ n, size (c :: pre) = n + 1 := ⟨size (c :: pre) - 1, by rw [size_cons]; omega⟩
    rw [size_cons] at hn
    rw [size_cons, hn, List.cons_append, takeBytes, if_pos (by omega)]
    have hrest : n + 1 - c.utf8Size = size pre := by omega
    rw [hrest, ih, Option.map_some]

theorem slice_append (pre m rest : List Char) : slice (pre ++ (m ++ rest)) (size pre) (size pre + size m) = some m := by
  rw [slice, if_pos (Nat.le_add_right _ _), dropBytes_append, Option.bind_some, Nat.add_sub_cancel_left,
    takeBytes_append]

theorem getElem?_bytes_append (pre rest : List Char) (n : ℕ) :
    (bytes (pre ++ rest))[size pre + n]? = (bytes rest)[n]? := by
  have hpre : (pre.flatMap String.utf8EncodeChar).length = size pre := length_bytes pre
  rw [bytes, List.flatMap_append, List.getElem?_append_right (by omega), hpre, Nat.add_sub_cancel_left, bytes]

/-! ### Characters of one byte -/

theorem encode_ascii (h : c.toNat < 128) : String.utf8EncodeChar c = [UInt8.ofNat c.toNat] := by
  have hle : c.val.toNat ≤ 0x7F := Nat.le_of_lt_succ h
  rw [String.utf8EncodeChar]
  exact if_pos hle

theorem toNat_ofNat_ge {n : ℕ} (h : 128 ≤ n) (h' : n < 256) : 128 ≤ (UInt8.ofNat n).toNat := by
  rw [UInt8.toNat_ofNat', Nat.mod_eq_of_lt h']
  exact h

/-- The bytes of any other character are none of ASCII's. -/
theorem encode_high (h : 128 ≤ c.toNat) : ∀ b ∈ String.utf8EncodeChar c, 128 ≤ b.toNat := by
  have hgt : ¬c.val.toNat ≤ 0x7F := Nat.not_le.mpr h
  simp only [String.utf8EncodeChar, if_neg hgt]
  split
  · simp only [List.forall_mem_cons]
    exact ⟨toNat_ofNat_ge (by omega) (by omega), toNat_ofNat_ge (by omega) (by omega), by simp⟩
  · split
    · simp only [List.forall_mem_cons]
      exact ⟨toNat_ofNat_ge (by omega) (by omega), toNat_ofNat_ge (by omega) (by omega),
        toNat_ofNat_ge (by omega) (by omega), by simp⟩
    · simp only [List.forall_mem_cons]
      exact ⟨toNat_ofNat_ge (by omega) (by omega), toNat_ofNat_ge (by omega) (by omega),
        toNat_ofNat_ge (by omega) (by omega), toNat_ofNat_ge (by omega) (by omega), by simp⟩

/-- What the first byte says of the first character, where no character but ASCII's satisfies it. -/
theorem any_first_byte {q : UInt8 → Bool} (hascii : ∀ c : Char, c.toNat < 128 → q (UInt8.ofNat c.toNat) = p c)
    (hbyte : ∀ b : UInt8, 128 ≤ b.toNat → q b = false) (hchar : ∀ c : Char, 128 ≤ c.toNat → p c = false)
    (s : List Char) : (bytes s)[0]?.any q = s.head?.any p := by
  cases s with
  | nil => rfl
  | cons c s =>
    rw [bytes, List.flatMap_cons, List.head?_cons, Option.any_some]
    by_cases hc : c.toNat < 128
    · rw [encode_ascii hc]
      exact hascii c hc
    · have hhigh := encode_high (Nat.not_lt.mp hc)
      cases hencode : String.utf8EncodeChar c with
      | nil => exact absurd hencode String.utf8EncodeChar_ne_nil
      | cons b l =>
        rw [hencode] at hhigh
        rw [hchar c (Nat.not_lt.mp hc)]
        exact hbyte b (hhigh b List.mem_cons_self)

/-! ### Searches -/

theorem find_eq_none : find p s = none ↔ ∀ c ∈ s, p c = false := by
  rw [find]
  split
  · rename_i hany
    obtain ⟨c, hc, hp⟩ := List.any_eq_true.mp hany
    refine iff_of_false (by simp) fun h => ?_
    rw [h c hc] at hp
    cases hp
  · rename_i hany
    refine iff_of_true rfl fun c hc => Bool.eq_false_iff.mpr fun hp => hany ?_
    exact List.any_eq_true.mpr ⟨c, hc, hp⟩

/-- What is found is a character that satisfies `p`, and none before it does. -/
theorem find_eq_some : find p s = some n ↔ ∃ pre c rest, s = pre ++ c :: rest ∧ (∀ d ∈ pre, p d = false) ∧ p c = true ∧
    n = size pre := by
  rw [find]
  constructor
  · intro h
    split at h
    · rename_i hany
      cases hdrop : s.dropWhile fun c => !p c with
      | nil =>
        obtain ⟨c, hc, hp⟩ := List.any_eq_true.mp hany
        have hall := List.dropWhile_eq_nil_iff.mp hdrop c hc
        rw [hp] at hall
        cases hall
      | cons c rest =>
        refine ⟨s.takeWhile fun c => !p c, c, rest, ?_, ?_, ?_, (Option.some.inj h).symm⟩
        · rw [← hdrop, List.takeWhile_append_dropWhile]
        · intro d hd
          simpa using List.mem_takeWhile_imp hd
        · have hhead := List.head?_dropWhile_not (fun c => !p c) s
          rw [hdrop] at hhead
          simpa using hhead
    · cases h
  · rintro ⟨pre, c, rest, rfl, hpre, hc, rfl⟩
    rw [if_pos (List.any_eq_true.mpr ⟨c, List.mem_append_right _ List.mem_cons_self, hc⟩),
      List.takeWhile_append_of_pos fun d hd => by simp [hpre d hd], List.takeWhile_cons_of_neg (by simp [hc]),
      List.append_nil]

/-! ### Maps that keep the sizes -/

section Map

variable {f : Char → Char} (hf : ∀ c, (f c).utf8Size = c.utf8Size)

include hf

theorem size_map (s : List Char) : size (s.map f) = size s := by
  induction s with
  | nil => rfl
  | cons c s ih => rw [List.map_cons, size_cons, size_cons, hf, ih]

theorem find_map (p : Char → Bool) (s : List Char) : find p (s.map f) = find (fun c => p (f c)) s := by
  rw [find, find, List.any_map, List.takeWhile_map, size_map hf]
  rfl

end Map

end Utf8
