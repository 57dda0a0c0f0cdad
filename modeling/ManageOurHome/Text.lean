import Mathlib.Data.List.DropRight
import Mathlib.Data.Rat.Defs

/-! @src apps (Rust `str`, `f64`) | layer:model | family:text

    Strings as lists of characters, and what the code asks of them. Lowercasing is Unicode's table, taken
    as a parameter wherever a key is compared; trimming is written out. An `f64` is the rational it
    denotes, an infinity, or not a number. -/

namespace Home

/-- A `str`. -/
abbrev Text := List Char

instance : LawfulBEq Text := inferInstance

/-- What holds of all of a text is decided along it, not over every character. -/
instance (priority := high) decidableAll (s : Text) (p : Char → Prop) [DecidablePred p] : Decidable (∀ c ∈ s, p c) :=
  List.decidableBAll p s

instance (priority := high) decidableHead (c : Option Char) (p : Char → Prop) [DecidablePred p] :
    Decidable (∀ d ∈ c, p d) :=
  Option.decidableForallMem c

/-- `char::is_whitespace`. -/
def isWhitespace (c : Char) : Bool :=
  let n := c.toNat
  (9 ≤ n ∧ n ≤ 13) ∨ n = 0x20 ∨ n = 0x85 ∨ n = 0xA0 ∨ n = 0x1680 ∨ (0x2000 ≤ n ∧ n ≤ 0x200A) ∨
    n = 0x2028 ∨ n = 0x2029 ∨ n = 0x202F ∨ n = 0x205F ∨ n = 0x3000

/-- `str::trim`. -/
def trim (s : Text) : Text := (s.dropWhile isWhitespace).rdropWhile isWhitespace

theorem dropWhile_trim (s : Text) : (trim s).dropWhile isWhitespace = trim s := by
  rw [List.dropWhile_eq_self_iff]
  intro hpos
  have hprefix := List.rdropWhile_prefix isWhitespace (s.dropWhile isWhitespace)
  have hlen : 0 < (s.dropWhile isWhitespace).length := hpos.trans_le hprefix.length_le
  have hhead : (trim s)[0] = (s.dropWhile isWhitespace)[0] := hprefix.getElem hpos
  rw [hhead]
  exact (List.dropWhile_eq_self_iff.mp (List.dropWhile_idempotent (p := isWhitespace) s)) hlen

theorem head_visible {s : Text} (h : s.dropWhile isWhitespace = s) : ∀ c ∈ s.head?, isWhitespace c = false := by
  intro c hc
  have hnot := List.head?_dropWhile_not isWhitespace s
  rw [h, hc] at hnot
  simpa using hnot

@[simp] theorem trim_trim (s : Text) : trim (trim s) = trim s := by
  conv_lhs => rw [trim, dropWhile_trim]
  exact List.rdropWhile_idempotent _ _

@[simp] theorem trim_nil : trim [] = [] := rfl

theorem trim_eq_self {s : Text} (h : ∀ c ∈ s, isWhitespace c = false) : trim s = s := by
  have hdrop : s.dropWhile isWhitespace = s :=
    List.dropWhile_eq_self_iff.mpr fun hpos => by rw [h _ (List.getElem_mem hpos)]; simp
  rw [trim, hdrop, List.rdropWhile_eq_self_iff]
  intro hne
  rw [h _ (List.getLast_mem hne)]
  simp

/-- `str::strip_prefix`. -/
def stripPrefix (pat s : Text) : Option Text := if pat.isPrefixOf s then some (s.drop pat.length) else none

theorem stripPrefix_append (pat s : Text) : stripPrefix pat (pat ++ s) = some s := by
  rw [stripPrefix, if_pos (List.isPrefixOf_iff_prefix.mpr (List.prefix_append pat s)), List.drop_left]

theorem stripPrefix_eq_some {pat s t : Text} : stripPrefix pat s = some t ↔ s = pat ++ t := by
  constructor
  · intro h
    by_cases hp : pat.isPrefixOf s = true
    · obtain ⟨t', rfl⟩ := List.isPrefixOf_iff_prefix.mp hp
      rw [stripPrefix_append] at h
      rw [Option.some.inj h]
    · rw [stripPrefix, if_neg hp] at h
      cases h
  · rintro rfl
    exact stripPrefix_append pat t

theorem stripPrefix_eq_none {pat s : Text} (h : ¬pat <+: s) : stripPrefix pat s = none :=
  if_neg fun hp => h (List.isPrefixOf_iff_prefix.mp hp)

/-- `str::to_lowercase`, on ASCII letters. -/
def asciiLowercase (s : Text) : Text := s.map Char.toLower

theorem toNat_toLower (c : Char) :
    c.toLower.toNat = if 65 ≤ c.toNat ∧ c.toNat ≤ 90 then c.toNat + 32 else c.toNat := by
  delta Char.toLower
  split
  · rename_i hc
    have hlo : 65 ≤ c.toNat := hc.1
    have hhi : c.toNat ≤ 90 := hc.2
    have hoffset : ('a'.val - 'A'.val).toNat = 32 := rfl
    rw [if_pos ⟨hlo, hhi⟩]
    change (c.val + ('a'.val - 'A'.val)).toNat = c.toNat + 32
    rw [UInt32.toNat_add, hoffset]
    exact Nat.mod_eq_of_lt (by change c.toNat + 32 < _; omega)
  · rename_i hc
    exact (if_neg hc).symm

/-- A character that is no letter. -/
def Unlettered (d : Char) : Prop := ¬(65 ≤ d.toNat ∧ d.toNat ≤ 90) ∧ ¬(97 ≤ d.toNat ∧ d.toNat ≤ 122)

theorem toLower_eq_iff {c d : Char} (hd : Unlettered d) : c.toLower = d ↔ c = d := by
  rw [← Char.toNat_inj, toNat_toLower, ← Char.toNat_inj]
  obtain ⟨hupper, hlower⟩ := hd
  split <;> omega

/-- An `f64`. -/
inductive F64 where
  | finite (q : ℚ)
  | infinite (negative : Bool)
  | nan
  deriving DecidableEq

end Home
