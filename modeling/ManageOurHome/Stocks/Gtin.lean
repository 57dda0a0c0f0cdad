import ManageOurHome.Stocks.Gs1

/-! @src apps/api/src/stocks (gs1.rs, barcode.rs) | layer:proof | family:barcodes

    A GTIN-14 against the barcode of the same product. A code padded to 14 digits keeps its check digit, and gives its
    own form back; but an EAN-8 padded and a longer code that starts with as many zeros are one GTIN-14, which is read as
    the EAN-8.

        96385074   0000096385074   ── 14 digits ──▶   00000096385074   ──▶   96385074 -/

namespace Home.Stocks

variable {c : Text}

/-- Digits whose number is that of a product code, and whose check digit holds. -/
structure Coded (c : Text) : Prop where
  digits : c.all Char.isDigit = true
  length : c.length ∈ [8, 12, 13]
  check : checkDigitHolds c = true

theorem isWhitespace_of_isDigit {x : Char} (h : x.isDigit = true) : isWhitespace x = false := by
  rw [Char.isDigit, Bool.and_eq_true, decide_eq_true_iff, decide_eq_true_iff] at h
  have hlo : 48 ≤ x.toNat := UInt32.le_iff_toNat_le.mp h.1
  have hhi : x.toNat ≤ 57 := UInt32.le_iff_toNat_le.mp h.2
  rw [isWhitespace, decide_eq_false_iff_not]
  omega

theorem filter_digits (h : c.all Char.isDigit = true) : c.filter (fun x => !isWhitespace x) = c := by
  refine List.filter_eq_self.mpr fun x hx => ?_
  rw [isWhitespace_of_isDigit (List.all_eq_true.mp h x hx)]
  rfl

/-- Digits are normalized by their number. -/
theorem normalize_digits (h : c.all Char.isDigit = true) (hne : c ≠ []) : normalize c =
    (match c.length with
      | 8 | 13 => some c
      | 12 => some ('0' :: c)
      | _ => none).filter checkDigitHolds := by
  rw [normalize, filter_digits h]
  exact if_neg (by simp [hne, h])

/-- A leading zero weighs nothing. -/
@[simp] theorem checkDigitHolds_zero (c : Text) : checkDigitHolds ('0' :: c) = checkDigitHolds c := by
  simp [checkDigitHolds, List.zipIdx_append]

theorem checkDigitHolds_replicate (n : ℕ) (c : Text) :
    checkDigitHolds (List.replicate n '0' ++ c) = checkDigitHolds c := by
  induction n with
  | zero => rfl
  | succ n ih => rw [List.replicate_succ, List.cons_append, checkDigitHolds_zero, ih]

theorem all_isDigit_replicate (n : ℕ) (h : c.all Char.isDigit = true) :
    (List.replicate n '0' ++ c).all Char.isDigit = true := by
  rw [List.all_append, h, Bool.and_true]
  exact List.all_eq_true.mpr fun x hx => by rw [List.eq_of_mem_replicate hx]; rfl

/-- The form stored for a code: its own, a UPC-A one more zero. -/
theorem Coded.normalize_eq (h : Coded c) :
    normalize c = some (if c.length = 12 then '0' :: c else c) := by
  have hne : c ≠ [] := by
    rintro rfl
    exact absurd h.length (by decide)
  have hlen := h.length
  simp only [List.mem_cons, List.not_mem_nil, or_false] at hlen
  rw [normalize_digits h.digits hne]
  rcases hlen with hlen | hlen | hlen
  · simp [hlen, h.check]
  · simp [hlen, h.check]
  · simp [hlen, h.check]

def fiveZeros : Text := ['0', '0', '0', '0', '0']

/-- A GTIN-14 that starts with a zero: an EAN-8 behind five more, or the 13 digits that are left. -/
theorem gtinToCode_zero {thirteen : Text} (hdigits : thirteen.all Char.isDigit = true) (hlen : thirteen.length = 13) :
    gtinToCode ('0' :: thirteen) =
      match stripPrefix fiveZeros thirteen with
      | some eight => normalize eight
      | none => normalize thirteen := by
  have hok : ¬(('0' :: thirteen).length ≠ 14 ∨ (!('0' :: thirteen).all Char.isDigit) = true) := by
    simp [hlen, hdigits]
  have hstrip : stripPrefix ['0'] ('0' :: thirteen) = some thirteen := stripPrefix_append ['0'] thirteen
  rw [gtinToCode, if_neg hok, hstrip]
  rfl

/-- The six zeros of an EAN-8 padded to 14 digits. -/
def sixZeros : Text := List.replicate 6 '0'

/-- PADDED: a code padded to 14 digits gives what its barcode gives, unless it has more than 8 digits and starts with the
    zeros an EAN-8 would be padded with: then it is read as the EAN-8 its last 8 digits are. -/
theorem gtinToCode_leftpad (h : Coded c) :
    (gtinToCode (c.leftpad 14 '0') = normalize c ↔ c.length = 8 ∨ ¬sixZeros <+: c.leftpad 14 '0') ∧
    (sixZeros <+: c.leftpad 14 '0' → gtinToCode (c.leftpad 14 '0') = some (c.drop (c.length - 8))) := by
  have hle : 8 ≤ c.length ∧ c.length ≤ 13 := by
    have := h.length
    simp only [List.mem_cons, List.not_mem_nil, or_false] at this
    omega
  -- the 13 digits behind the first zero
  obtain ⟨n, hn⟩ : ∃ n, c.length + n = 13 := ⟨13 - c.length, by omega⟩
  have hpad : c.leftpad 14 '0' = '0' :: (List.replicate n '0' ++ c) := by
    rw [List.leftpad, show 14 - c.length = n + 1 by omega, List.replicate_succ, List.cons_append]
  have hlen : (List.replicate n '0' ++ c).length = 13 := by
    rw [List.length_append, List.length_replicate]
    omega
  have hthirteen : Coded (List.replicate n '0' ++ c) :=
    ⟨all_isDigit_replicate n h.digits, by rw [hlen]; decide, by rw [checkDigitHolds_replicate, h.check]⟩
  have hzeros : sixZeros <+: c.leftpad 14 '0' ↔ fiveZeros <+: List.replicate n '0' ++ c := by
    rw [hpad]
    exact List.cons_prefix_cons.trans (and_iff_right rfl)
  rw [hzeros, hpad, gtinToCode_zero hthirteen.digits hlen]
  by_cases hp : fiveZeros <+: List.replicate n '0' ++ c
  · obtain ⟨eight, heq⟩ := hp
    have height : eight.length = 8 := by
      have hsum := congrArg List.length heq
      rw [hlen, List.length_append] at hsum
      exact Nat.add_left_cancel (show 5 + eight.length = 5 + 8 from hsum)
    have hdrop : eight = c.drop (c.length - 8) := by
      have htail := congrArg (List.drop 5) heq
      rw [List.drop_left' (by rfl), List.drop_append, List.length_replicate, List.drop_replicate,
        show n - 5 = 0 by omega, show 5 - n = c.length - 8 by omega] at htail
      exact htail
    have hcoded : Coded eight := by
      have hdigits := hthirteen.digits
      have hcheck := hthirteen.check
      rw [← heq] at hdigits hcheck
      rw [List.all_append, Bool.and_eq_true] at hdigits
      exact ⟨hdigits.2, by rw [height]; decide, (checkDigitHolds_replicate 5 eight).symm.trans hcheck⟩
    rw [← heq, stripPrefix_append]
    dsimp only
    rw [hcoded.normalize_eq, if_neg (by omega)]
    refine ⟨?_, fun _ => congrArg some hdrop⟩
    rw [h.normalize_eq, Option.some.injEq]
    constructor
    · intro hsame
      have hsame := congrArg List.length hsame
      split at hsame
      · rw [height, List.length_cons] at hsame
        omega
      · exact .inl (by omega)
    · rintro (hshort | hnot)
      · rw [if_neg (by omega), hdrop, hshort]
        rfl
      · exact absurd (List.prefix_append _ _) hnot
  · rw [stripPrefix_eq_none hp]
    dsimp only
    refine ⟨iff_of_true ?_ (.inr hp), fun h => absurd h hp⟩
    have hlong : c.length ≠ 8 := fun hshort => hp ⟨c, by rw [show n = 5 by omega]; rfl⟩
    rw [hthirteen.normalize_eq, h.normalize_eq, if_neg (by omega)]
    have hmem := h.length
    simp only [List.mem_cons, List.not_mem_nil, or_false] at hmem
    rcases hmem with hshort | hupc | hean
    · exact absurd hshort hlong
    · rw [if_pos hupc, show n = 1 by omega]
      rfl
    · rw [if_neg (by omega), show n = 0 by omega]
      rfl

/-- An EAN-8, alone and behind five zeros. -/
def ean8 : Text := "96385074".toList

theorem gtinToCode_leftpad_ean : gtinToCode ("3017620422003".toList.leftpad 14 '0') =
    normalize "3017620422003".toList :=
  (gtinToCode_leftpad ⟨by decide, by decide, by decide⟩).1.mpr (.inr (by decide))

/-- Two codes, one GTIN-14. -/
theorem gtinToCode_zeros : ¬∀ c : Text, Coded c → gtinToCode (c.leftpad 14 '0') = normalize c := by
  intro hclaim
  exact absurd (hclaim (fiveZeros ++ ean8) ⟨by decide, by decide, by decide⟩) (by decide)

end Home.Stocks
