import Mathlib.Algebra.Order.Field.Power
import Mathlib.Data.Int.Log
import Mathlib.Data.Rat.Floor
import ManageOurHome.Lib.Net
import ManageOurHome.Text

/-! @src apps (Rust `f64`, `i32`) | layer:model | family:numbers

    How a text becomes a number: the decimal it writes, rounded to the nearest double, the even one of two.

        0.5 ──▶ 1/2      1,5 ──▶ no number      1e400, inf ──▶ an infinity -/

namespace Home

open Net (value)

/-! ### Rounding -/

/-- The nearest integer, the even one of two. -/
def roundEven (q : ℚ) : ℤ :=
  if q - ⌊q⌋ < 1 / 2 then ⌊q⌋ else if 1 / 2 < q - ⌊q⌋ then ⌊q⌋ + 1 else if ⌊q⌋ % 2 = 0 then ⌊q⌋ else ⌊q⌋ + 1

/-- The exponent of the last bit of the doubles next to a rational. -/
def F64.exponent (q : ℚ) : ℤ := max (Int.log 2 |q| - 52) (-1074)

/-- A rational to the nearest double. -/
def F64.ofRat (q : ℚ) : F64 :=
  let r := roundEven (q / 2 ^ exponent q) * (2 : ℚ) ^ exponent q
  if 2 ^ 1024 ≤ |r| then .infinite (r < 0) else .finite r

def F64.neg : F64 → F64
  | .finite q => .finite (-q)
  | .infinite negative => .infinite !negative
  | .nan => .nan

/-- `v < 0.0`. -/
def F64.isNegative : F64 → Bool
  | .finite q => q < 0
  | .infinite negative => negative
  | .nan => false

/-! ### Arithmetic -/

/-- The sum; there is one zero here. -/
def F64.add : F64 → F64 → F64
  | .finite a, .finite b => ofRat (a + b)
  | .nan, _ | _, .nan => .nan
  | .infinite a, .infinite b => if a = b then .infinite a else .nan
  | .infinite a, .finite _ | .finite _, .infinite a => .infinite a

def F64.mul : F64 → F64 → F64
  | .finite a, .finite b => ofRat (a * b)
  | .nan, _ | _, .nan => .nan
  | .infinite a, .infinite b => .infinite (a != b)
  | .infinite a, .finite b | .finite b, .infinite a => if b = 0 then .nan else .infinite (a != decide (b < 0))

def F64.div : F64 → F64 → F64
  | .finite a, .finite b => if b ≠ 0 then ofRat (a / b) else if a = 0 then .nan else .infinite (a < 0)
  | .nan, _ | _, .nan => .nan
  | .infinite _, .infinite _ => .nan
  | .infinite a, .finite b => .infinite (a != decide (b < 0))
  | .finite _, .infinite _ => .finite 0

/-- `f64::round`: the nearest integer, a half away from zero. -/
def F64.round : F64 → F64
  | .finite q => .finite (if 0 ≤ q then ⌊q + 1 / 2⌋ else -⌊-q + 1 / 2⌋)
  | v => v

/-! ### Reading -/

/-- Digits, after a sign or none. -/
def parseSigned (s : Text) : Option ℤ :=
  let digits := if s.head? = some '-' ∨ s.head? = some '+' then s.tail else s
  if digits ≠ [] ∧ digits.all Char.isDigit then
    some (if s.head? = some '-' then -(value 10 digits : ℤ) else (value 10 digits : ℤ))
  else none

/-- `str::parse::<i32>`. -/
def parseI32 (s : Text) : Option ℤ := (parseSigned s).filter fun n => -2 ^ 31 ≤ n ∧ n < 2 ^ 31

/-- What follows the digits of a float. -/
def parseExponent : Text → Option ℤ
  | [] => some 0
  | c :: rest => if c = 'e' ∨ c = 'E' then parseSigned rest else none

/-- The digits after a point, if there is one, and what follows. -/
def fractionOf : Text → Text × Text
  | [] => ([], [])
  | c :: rest => if c = '.' then (rest.takeWhile Char.isDigit, rest.dropWhile Char.isDigit) else ([], c :: rest)

def parseDecimal (s : Text) : Option ℚ :=
  let whole := s.takeWhile Char.isDigit
  let (fraction, rest) := fractionOf (s.dropWhile Char.isDigit)
  if whole = [] ∧ fraction = [] then none
  else (parseExponent rest).map fun e => (value 10 (whole ++ fraction) : ℚ) * 10 ^ (e - fraction.length : ℤ)

def parseMagnitude (s : Text) : Option F64 :=
  if asciiLowercase s = "inf".toList ∨ asciiLowercase s = "infinity".toList then some (.infinite false)
  else if asciiLowercase s = "nan".toList then some .nan
  else (parseDecimal s).map F64.ofRat

/-- `str::parse::<f64>`. -/
def parseF64 (s : Text) : Option F64 :=
  if s.head? = some '-' then (parseMagnitude s.tail).map F64.neg
  else if s.head? = some '+' then parseMagnitude s.tail
  else parseMagnitude s

/-! ### Doubles -/

@[simp] theorem roundEven_intCast (n : ℤ) : roundEven n = n := by
  rw [roundEven, Int.floor_intCast, sub_self, if_pos (by norm_num)]

theorem roundEven_le {q : ℚ} {n : ℤ} (h : q < n + 1 / 2) : roundEven q ≤ n := by
  have hfloor : (⌊q⌋ : ℚ) ≤ q := Int.floor_le q
  have hle : ⌊q⌋ ≤ n := Int.le_of_lt_add_one (by
    have hlt : (⌊q⌋ : ℚ) < (n + 1 : ℤ) := by
      push_cast
      linarith
    exact_mod_cast hlt)
  rcases hle.lt_or_eq with hlt | heq
  · rw [roundEven]
    split_ifs <;> omega
  · have hhalf : q - ⌊q⌋ < 1 / 2 := by
      rw [heq]
      linarith
    rw [roundEven, if_pos hhalf, heq]

theorem roundEven_nonneg {q : ℚ} (h : 0 ≤ q) : 0 ≤ roundEven q := by
  have hfloor : 0 ≤ ⌊q⌋ := Int.floor_nonneg.mpr h
  rw [roundEven]
  split_ifs <;> omega

theorem ofRat_natCast {n : ℕ} (h : n < 2 ^ 53) : F64.ofRat n = .finite n := by
  have hlog : Nat.log 2 n < 53 := by
    rcases Nat.eq_zero_or_pos n with rfl | hpos
    · simp
    · exact Nat.log_lt_of_lt_pow hpos.ne' h
  obtain ⟨k, hk⟩ : ∃ k : ℕ, F64.exponent n = -k := by
    rw [F64.exponent, Nat.abs_cast, Int.log_natCast]
    exact ⟨(-(max ((Nat.log 2 n : ℤ) - 52) (-1074))).toNat, by omega⟩
  have hscaled : (n : ℚ) / 2 ^ F64.exponent n = ((n * 2 ^ k : ℤ) : ℚ) := by
    rw [hk, zpow_neg, zpow_natCast, div_inv_eq_mul]
    push_cast
    rfl
  have hround : (roundEven ((n : ℚ) / 2 ^ F64.exponent n) : ℚ) * 2 ^ F64.exponent n = n := by
    rw [hscaled, roundEven_intCast, ← hscaled]
    exact div_mul_cancel₀ _ (zpow_ne_zero _ two_ne_zero)
  have hsmall : ¬(2 : ℚ) ^ 1024 ≤ |(n : ℚ)| := by
    rw [Nat.abs_cast, not_le]
    calc (n : ℚ) < 2 ^ 53 := by exact_mod_cast h
      _ ≤ 2 ^ 1024 := pow_le_pow_right₀ one_le_two (by decide)
  rw [F64.ofRat, hround, if_neg hsmall]

/-- What rounds to a finite double: anything below the midpoint of the largest one and 2^1024. -/
theorem ofRat_finite {q : ℚ} (hpos : 0 ≤ q) (h : q < 2 ^ 1024 - 2 ^ 970) : ∃ r, 0 ≤ r ∧ F64.ofRat q = .finite r := by
  have hscale : (0 : ℚ) < 2 ^ F64.exponent q := zpow_pos two_pos _
  have hnonneg : 0 ≤ roundEven (q / 2 ^ F64.exponent q) * (2 : ℚ) ^ F64.exponent q :=
    mul_nonneg (by exact_mod_cast roundEven_nonneg (div_nonneg hpos hscale.le)) hscale.le
  have hpow : (0 : ℚ) < 2 ^ 970 := pow_pos two_pos _
  have hnext : (2 : ℚ) ^ 971 = 2 * 2 ^ 970 := pow_succ' 2 970
  have htotal : (2 : ℚ) ^ 1024 = 2 ^ 54 * 2 ^ 970 := by rw [← pow_add]
  have hbelow : q < 2 ^ 1024 := h.trans (sub_lt_self _ hpow)
  have hlog : Int.log 2 q < 1024 := by
    rcases hpos.eq_or_lt with rfl | hpos
    · rw [Int.log_of_right_le_zero 2 le_rfl]
      decide
    · refine (Int.lt_zpow_iff_log_lt one_lt_two hpos).mp ?_
      rw [zpow_ofNat, Nat.cast_two]
      exact hbelow
  have hlt : roundEven (q / 2 ^ F64.exponent q) * (2 : ℚ) ^ F64.exponent q < 2 ^ 1024 := by
    rcases lt_or_ge 970 (F64.exponent q) with htop | htop
    · have hexp : F64.exponent q = 971 := by
        rw [F64.exponent, abs_of_nonneg hpos] at htop ⊢
        omega
      rw [hexp, zpow_ofNat]
      have hround : roundEven (q / 2 ^ 971) ≤ 2 ^ 53 - 1 := by
        refine roundEven_le ?_
        rw [div_lt_iff₀ (pow_pos two_pos _), hnext]
        rw [htotal] at h
        push_cast
        generalize (2 : ℚ) ^ 970 = a at h
        linarith
      have hround : (roundEven (q / 2 ^ 971) : ℚ) ≤ 2 ^ 53 - 1 := by exact_mod_cast hround
      refine (mul_le_mul_of_nonneg_right hround (pow_pos two_pos _).le).trans_lt ?_
      rw [hnext, htotal]
      generalize (2 : ℚ) ^ 970 = a at hpow
      linarith
    · have hround : roundEven (q / 2 ^ F64.exponent q) ≤ 2 ^ 53 := by
        refine roundEven_le ?_
        rw [div_lt_iff₀ hscale]
        have hbit : q < 2 ^ (53 : ℤ) * 2 ^ F64.exponent q := by
          rw [← zpow_add₀ two_ne_zero]
          calc q < ((2 : ℕ) : ℚ) ^ (Int.log 2 q + 1) := Int.lt_zpow_succ_log_self one_lt_two q
            _ ≤ 2 ^ (53 + F64.exponent q) := by
              rw [Nat.cast_two]
              refine zpow_le_zpow_right₀ one_le_two ?_
              rw [F64.exponent, abs_of_nonneg hpos]
              omega
        rw [zpow_ofNat] at hbit
        push_cast
        linarith
      have hround : (roundEven (q / 2 ^ F64.exponent q) : ℚ) ≤ 2 ^ 53 := by exact_mod_cast hround
      have hsmall : (2 : ℚ) ^ F64.exponent q ≤ 2 ^ 970 := by
        rw [← zpow_ofNat]
        exact zpow_le_zpow_right₀ one_le_two htop
      calc (roundEven (q / 2 ^ F64.exponent q) : ℚ) * 2 ^ F64.exponent q ≤ 2 ^ 53 * 2 ^ 970 :=
            mul_le_mul hround hsmall hscale.le (pow_pos two_pos _).le
        _ < 2 ^ 1024 := by
          rw [htotal]
          generalize (2 : ℚ) ^ 970 = a at hpow
          linarith
  refine ⟨_, hnonneg, ?_⟩
  rw [F64.ofRat, abs_of_nonneg hnonneg, if_neg (not_le.mpr hlt)]

theorem roundEven_ge {q : ℚ} {n : ℤ} (h : n ≤ q) : n ≤ roundEven q := by
  have hfloor : n ≤ ⌊q⌋ := Int.le_floor.mpr h
  rw [roundEven]
  split_ifs <;> omega

/-- A power of two is a whole number of the last bits of what is no smaller. -/
theorem exists_bits {q : ℚ} {k : ℤ} (hk : F64.exponent q ≤ k) : ∃ m : ℤ, (2 : ℚ) ^ k / 2 ^ F64.exponent q = m := by
  refine ⟨2 ^ (k - F64.exponent q).toNat, ?_⟩
  rw [← zpow_sub₀ two_ne_zero]
  push_cast
  rw [← zpow_natCast, Int.toNat_of_nonneg (by omega)]

/-- What is at most a power of two is rounded to what is. -/
theorem ofRat_le {q : ℚ} {k : ℕ} (hpos : 0 ≤ q) (h : q ≤ 2 ^ k) (hk : k < 1024) :
    ∃ r, F64.ofRat q = .finite r ∧ 0 ≤ r ∧ r ≤ 2 ^ k := by
  have hscale : (0 : ℚ) < 2 ^ F64.exponent q := zpow_pos two_pos _
  have hlog : Int.log 2 q ≤ k := by
    rcases hpos.eq_or_lt with rfl | hpos
    · rw [Int.log_of_right_le_zero 2 le_rfl]
      exact Int.natCast_nonneg k
    · refine Int.le_of_lt_add_one ((Int.lt_zpow_iff_log_lt one_lt_two hpos).mp ?_)
      calc q ≤ (2 : ℚ) ^ k := h
        _ < 2 ^ (k + 1) := pow_lt_pow_right₀ one_lt_two (Nat.lt_succ_self k)
        _ = ((2 : ℕ) : ℚ) ^ ((k : ℤ) + 1) := by
          rw [Nat.cast_two]
          exact (zpow_natCast 2 (k + 1)).symm
  have hexp : F64.exponent q ≤ k := by
    rw [F64.exponent, abs_of_nonneg hpos]
    omega
  obtain ⟨m, hm⟩ := exists_bits hexp
  have hround : roundEven (q / 2 ^ F64.exponent q) ≤ m := by
    refine roundEven_le (lt_of_le_of_lt ?_ (lt_add_of_pos_right _ one_half_pos))
    rw [← hm, zpow_natCast]
    exact div_le_div_of_nonneg_right h hscale.le
  have hnonneg : 0 ≤ roundEven (q / 2 ^ F64.exponent q) * (2 : ℚ) ^ F64.exponent q :=
    mul_nonneg (by exact_mod_cast roundEven_nonneg (div_nonneg hpos hscale.le)) hscale.le
  have hle : roundEven (q / 2 ^ F64.exponent q) * (2 : ℚ) ^ F64.exponent q ≤ 2 ^ k := by
    calc (roundEven (q / 2 ^ F64.exponent q) : ℚ) * 2 ^ F64.exponent q ≤ m * 2 ^ F64.exponent q :=
          mul_le_mul_of_nonneg_right (by exact_mod_cast hround) hscale.le
      _ = 2 ^ k := by rw [← hm, zpow_natCast, div_mul_cancel₀ _ hscale.ne']
  have hsmall : ¬(2 : ℚ) ^ 1024 ≤ |roundEven (q / 2 ^ F64.exponent q) * (2 : ℚ) ^ F64.exponent q| := by
    rw [abs_of_nonneg hnonneg, not_le]
    exact hle.trans_lt (pow_lt_pow_right₀ one_lt_two hk)
  exact ⟨_, by rw [F64.ofRat, if_neg hsmall], hnonneg, hle⟩

/-- What is at least one is rounded to what is. -/
theorem one_le_ofRat {q r : ℚ} (h : 1 ≤ q) (hr : F64.ofRat q = .finite r) : 1 ≤ r := by
  have hpos : 0 < q := one_pos.trans_le h
  have hscale : (0 : ℚ) < 2 ^ F64.exponent q := zpow_pos two_pos _
  have hlog : 0 ≤ Int.log 2 q := (Int.zpow_le_iff_le_log one_lt_two hpos).mp (by rwa [zpow_zero])
  have hexp : F64.exponent q ≤ Int.log 2 q := by
    rw [F64.exponent, abs_of_pos hpos]
    omega
  obtain ⟨m, hm⟩ := exists_bits hexp
  have hpow : (2 : ℚ) ^ Int.log 2 q ≤ q := by
    have hle := Int.zpow_log_le_self one_lt_two hpos (b := 2)
    rwa [Nat.cast_two] at hle
  have hround : m ≤ roundEven (q / 2 ^ F64.exponent q) := by
    refine roundEven_ge ?_
    rw [← hm]
    exact div_le_div_of_nonneg_right hpow hscale.le
  rw [F64.ofRat] at hr
  split at hr
  · cases hr
  · obtain rfl := F64.finite.inj hr
    calc (1 : ℚ) ≤ 2 ^ Int.log 2 q := one_le_zpow₀ one_le_two hlog
      _ = m * 2 ^ F64.exponent q := by rw [← hm, div_mul_cancel₀ _ hscale.ne']
      _ ≤ _ := mul_le_mul_of_nonneg_right (by exact_mod_cast hround) hscale.le

/-! ### What is read -/

theorem isDigit_toDigits {n : ℕ} {c : Char} (hc : c ∈ Nat.toDigits 10 n) : c.isDigit = true :=
  Nat.isDigit_of_mem_toDigits (by decide) (by decide) hc

theorem value_toDigits (n : ℕ) : value 10 (Nat.toDigits 10 n) = n := (Net.toDigits_spec (by decide) (by decide) n).2.1

theorem head?_toDigits_ne {n : ℕ} {c : Char} (hc : c.isDigit = false) : (Nat.toDigits 10 n).head? ≠ some c := by
  intro h
  rw [isDigit_toDigits (List.mem_of_head? h)] at hc
  cases hc

theorem parseSigned_toDigits (n : ℕ) : parseSigned (Nat.toDigits 10 n) = some (n : ℤ) := by
  have hall : (Nat.toDigits 10 n).all Char.isDigit = true := List.all_eq_true.mpr fun _ hc => isDigit_toDigits hc
  have hsign : ¬((Nat.toDigits 10 n).head? = some '-' ∨ (Nat.toDigits 10 n).head? = some '+') :=
    not_or.mpr ⟨head?_toDigits_ne (by decide), head?_toDigits_ne (by decide)⟩
  rw [parseSigned, if_neg hsign, if_pos ⟨Nat.toDigits_ne_nil, hall⟩, if_neg (head?_toDigits_ne (by decide)),
    value_toDigits]

theorem parseDecimal_digits {ds : Text} (hne : ds ≠ []) (h : ∀ c ∈ ds, c.isDigit = true) :
    parseDecimal ds = some (value 10 ds : ℚ) := by
  have htake : ds.takeWhile Char.isDigit = ds := List.takeWhile_eq_self_iff.mpr h
  have hdrop : ds.dropWhile Char.isDigit = [] := List.dropWhile_eq_nil_iff.mpr h
  rw [parseDecimal, htake, hdrop, fractionOf]
  simp [parseExponent, hne]

theorem parseDecimal_toDigits (n : ℕ) : parseDecimal (Nat.toDigits 10 n) = some (n : ℚ) := by
  rw [parseDecimal_digits Nat.toDigits_ne_nil fun _ hc => isDigit_toDigits hc, value_toDigits]

/-- Digits, a point and digits. -/
theorem parseDecimal_point {ds es : Text} (hne : ds ≠ []) (h : ∀ c ∈ ds, c.isDigit = true)
    (h' : ∀ c ∈ es, c.isDigit = true) :
    parseDecimal (ds ++ '.' :: es) = some (value 10 (ds ++ es) / 10 ^ es.length : ℚ) := by
  have htake : (ds ++ '.' :: es).takeWhile Char.isDigit = ds := by
    rw [List.takeWhile_append_of_pos h, List.takeWhile_cons_of_neg (by decide), List.append_nil]
  have hdrop : (ds ++ '.' :: es).dropWhile Char.isDigit = '.' :: es := by
    rw [List.dropWhile_append_of_pos h, List.dropWhile_cons_of_neg (by decide)]
  have htakes : es.takeWhile Char.isDigit = es := List.takeWhile_eq_self_iff.mpr h'
  have hdrops : es.dropWhile Char.isDigit = [] := List.dropWhile_eq_nil_iff.mpr h'
  rw [parseDecimal, htake, hdrop, fractionOf, if_pos rfl, htakes, hdrops]
  simp [parseExponent, hne, div_eq_mul_inv, zpow_neg]

/-- A text that starts with a digit has no sign. -/
theorem parseF64_digit {d : Char} {s : Text} (hd : d.isDigit = true) : parseF64 (d :: s) = parseMagnitude (d :: s) := by
  have hne : ∀ c, c.isDigit = false → (d :: s).head? ≠ some c := by
    rintro c hc heq
    obtain rfl : d = c := Option.some.inj heq
    rw [hd] at hc
    cases hc
  rw [parseF64, if_neg (hne '-' (by decide)), if_neg (hne '+' (by decide))]

theorem parseDecimal_letter {c : Char} (hc : 65 ≤ c.toNat) (rest : Text) : parseDecimal (c :: rest) = none := by
  have hdigit : ¬c.isDigit = true := by
    rw [Char.isDigit, Bool.and_eq_true, decide_eq_true_iff, decide_eq_true_iff]
    rintro ⟨-, hhi⟩
    have hhi : c.toNat ≤ 57 := UInt32.le_iff_toNat_le.mp hhi
    omega
  have hpoint : c ≠ '.' := by
    rintro rfl
    exact absurd hc (by decide)
  rw [parseDecimal, List.takeWhile_cons_of_neg hdigit, List.dropWhile_cons_of_neg hdigit, fractionOf, if_neg hpoint]
  rfl

theorem letter_of_asciiLowercase {s word : Text} {d : Char} (hd : 97 ≤ d.toNat ∧ d.toNat ≤ 122)
    (h : asciiLowercase s = d :: word) : parseDecimal s = none := by
  cases s with
  | nil => cases h
  | cons c rest =>
    refine parseDecimal_letter ?_ rest
    have hhead : c.toLower.toNat = d.toNat := congrArg Char.toNat (List.cons.inj h).1
    rw [toNat_toLower] at hhead
    split at hhead <;> omega

/-- A decimal is rounded: it is no `inf`, and no `nan`. -/
theorem parseMagnitude_decimal {s : Text} {q : ℚ} (h : parseDecimal s = some q) :
    parseMagnitude s = some (F64.ofRat q) ∧ 0 ≤ q := by
  have hword : ∀ {d : Char} {word : Text}, 97 ≤ d.toNat ∧ d.toNat ≤ 122 → asciiLowercase s ≠ d :: word := by
    intro d word hd heq
    rw [letter_of_asciiLowercase hd heq] at h
    cases h
  have hinf : asciiLowercase s ≠ "inf".toList := hword (by decide)
  have hinfinity : asciiLowercase s ≠ "infinity".toList := hword (by decide)
  have hnan : asciiLowercase s ≠ "nan".toList := hword (by decide)
  refine ⟨by rw [parseMagnitude, if_neg (not_or.mpr ⟨hinf, hinfinity⟩), if_neg hnan, h, Option.map_some], ?_⟩
  rw [parseDecimal] at h
  dsimp only at h
  split at h
  · cases h
  · obtain ⟨e, -, rfl⟩ := Option.map_eq_some_iff.mp h
    positivity

theorem parseF64_toDigits {n : ℕ} (h : n < 2 ^ 53) : parseF64 (Nat.toDigits 10 n) = some (.finite n) := by
  rw [parseF64, if_neg (head?_toDigits_ne (by decide)), if_neg (head?_toDigits_ne (by decide)),
    (parseMagnitude_decimal (parseDecimal_toDigits n)).1, ofRat_natCast h]

end Home
