import Reckoner.Proofs.Retyping
import Reckoner.Proofs.Significance

/-!
# Reading back what is shown

A numeral, with a sign in front and an exponent behind or without, is read as the number that is
written (`Text.Numeral.readMagnitude?_eq`). So what is shown of a number that rounding leaves alone
is read as just that number, positional or scientific (`Decimal.read?_display`), and a number within
the digits that are asked for is shown exactly (`Decimal.number?_of_display`).
-/

namespace Reckoner

/-! ## Integers -/

namespace Text

theorem ofNat_ne_nil (n : Nat) : ofNat n ≠ [] := by
  unfold ofNat
  split
  · exact List.cons_ne_nil _ _
  · rename_i hzero
    intro hempty
    have hback := Digits.read_text n
    rw [hempty] at hback
    exact hzero hback.symm

theorem isDigit_of_mem_ofNat {n : Nat} {u : UInt16} (h : u ∈ ofNat n) : isDigit u = true := by
  unfold ofNat at h
  split at h
  · rw [List.mem_singleton.mp h]
    rfl
  · exact Digits.isDigit_of_mem_text h

theorem read_ofNat (n : Nat) : Digits.read (ofNat n) = n := by
  unfold ofNat
  split
  · rename_i hzero
    rw [hzero]
    rfl
  · exact Digits.read_text n

end Text

theorem Decimal.readInt?_digits {digits : Text} (hne : digits ≠ [])
    (hdigits : ∀ u ∈ digits, Text.isDigit u = true) :
    readInt? digits = some (Digits.read digits : Int) ∧
      readInt? (Text.unit '-' :: digits) = some (-(Digits.read digits : Int)) := by
  have hall : digits.all Text.isDigit = true := List.all_eq_true.mpr hdigits
  cases digits with
  | nil => exact absurd rfl hne
  | cons u rest =>
    have hminus : (u == Text.unit '-') = false := by
      apply beq_false_of_ne
      rintro rfl
      exact Bool.false_ne_true (hdigits _ List.mem_cons_self)
    constructor
    · simp only [readInt?, hminus, hall, Bool.false_eq_true, if_false, List.isEmpty_cons,
        Bool.not_true, Bool.or_self]
    · simp only [readInt?, beq_self_eq_true, hall, if_true, List.isEmpty_cons, Bool.not_true,
        Bool.or_self, Bool.false_eq_true, if_false]

theorem Decimal.readInt?_ofInt (n : Int) : readInt? (Text.ofInt n) = some n := by
  obtain ⟨hplain, hminus⟩ := readInt?_digits (Text.ofNat_ne_nil n.natAbs)
    fun u => Text.isDigit_of_mem_ofNat
  rw [Text.read_ofNat] at hplain hminus
  unfold Text.ofInt
  split
  · rw [hminus]
    congr 1
    omega
  · rw [hplain]
    congr 1
    omega

/-! ## Numerals -/

/-- Digits are cut off where they end. -/
theorem Text.span_digits {digits rest : Text} (hdigits : ∀ u ∈ digits, isDigit u = true)
    (hrest : ∀ u ∈ rest.head?, isDigit u = false) :
    (digits ++ rest).takeWhile isDigit = digits ∧ (digits ++ rest).dropWhile isDigit = rest := by
  rw [List.takeWhile_append_of_pos hdigits, List.dropWhile_append_of_pos hdigits,
    Token.takeWhile_of_head hrest, List.append_nil]
  refine ⟨rfl, ?_⟩
  cases rest with
  | nil => rfl
  | cons u rest => exact List.dropWhile_cons_of_neg (by simpa using hrest u rfl)

namespace Text.Numeral

variable {t whole fraction rest : Text}

theorem digits_append (h : t.Numeral whole fraction) (hrest : Ended rest) :
    (t ++ rest).takeWhile isDigit = whole ∧ (t ++ rest).dropWhile isDigit =
      (if fraction.isEmpty then [] else unit '.' :: fraction) ++ rest := by
  have hsplit : t ++ rest =
      whole ++ ((if fraction.isEmpty then [] else unit '.' :: fraction) ++ rest) := by
    rw [h.text, numeral]
    split <;> simp
  rw [hsplit]
  apply span_digits h.whole
  intro u hu
  split at hu
  · exact (hrest u hu).1
  · cases hu
    rfl

/-- Reads the exponent behind a numeral, if there is one. -/
def scaled? (whole fraction : Text) : Text → Option Magnitude
  | [] => some (.ofNumeral whole fraction 0)
  | u :: exponent =>
    if u = unit 'e' then (Decimal.readInt? exponent).map (Magnitude.ofNumeral whole fraction)
    else none

/-- **A numeral is read as its digits**, up to the exponent. -/
theorem readMagnitude?_append (h : t.Numeral whole fraction) (hrest : Ended rest) :
    Decimal.readMagnitude? (t ++ rest) = scaled? whole fraction rest := by
  obtain ⟨htake, hdrop⟩ := h.digits_append hrest
  have hwhole : whole.isEmpty = false := by simpa using h.nonempty
  by_cases hempty : fraction.isEmpty = true
  · have hpoint : (rest.head? == some (unit '.')) = false := by
      apply beq_false_of_ne
      intro hhead
      exact (hrest _ hhead).2 rfl
    rw [if_pos hempty, List.nil_append] at hdrop
    rw [List.isEmpty_iff.mp hempty]
    simp only [Decimal.readMagnitude?, htake, hdrop, hpoint, hwhole, Bool.false_eq_true, if_false,
      Bool.false_and, Bool.or_self]
    cases rest with
    | nil => rfl
    | cons u exponent => simp only [scaled?, beq_iff_eq]
  · have hpoint : (some (unit '.') == some (unit '.')) = true := rfl
    have hback := span_digits h.fraction fun u hu => (hrest u hu).1
    rw [if_neg hempty] at hdrop
    simp only [Decimal.readMagnitude?, htake, hdrop, hwhole, List.cons_append, List.head?_cons,
      hpoint, List.tail_cons, if_true, hback, hempty, Bool.true_and, Bool.or_self,
      Bool.false_eq_true, if_false]
    cases rest with
    | nil => rfl
    | cons u exponent => simp only [scaled?, beq_iff_eq]

end Text.Numeral

/-! ## What is shown -/

namespace Magnitude

theorem ofNumeral_scaled (whole fraction : Text) (exponent : Int) :
    (ofNumeral whole fraction exponent).toRat =
      Text.numeralValue whole fraction * (10 : ℚ) ^ exponent := by
  rw [ofNumeral, toRat_ofScaled, Digits.read_append, mul_assoc, ← zpow10_add]
  have hexp : (fraction.length : ℤ) + (exponent - fraction.length) = exponent := by omega
  rw [hexp]

variable {m : Magnitude} {p : Nat}

/-- The digits of a magnitude with the point behind the first are a numeral of that magnitude, up to
the exponent of the first digit. -/
theorem scientific_numeral (hzero : m.isZero = false) : ∃ whole fraction,
    (Text.positional (Digits.text m.coeff) 1).Numeral whole fraction ∧
      ofNumeral whole fraction m.lead = m := by
  have hlength : (Digits.text m.coeff).length = m.digitCount := Digits.length_text m.coeff
  obtain ⟨whole, fraction, hnumeral, hvalue⟩ := Text.positional_numeral
    (fun u hu => Digits.isDigit_of_mem_text hu) (text_ne_nil hzero) 1
  refine ⟨whole, fraction, hnumeral, toRat_inj ?_⟩
  have hexp : 1 - (m.digitCount : ℤ) + m.lead = m.exp := by
    unfold lead
    omega
  rw [ofNumeral_scaled, hvalue, Digits.read_text, hlength, mul_assoc, ← zpow10_add, hexp, toRat]

theorem readMagnitude?_positional (hzero : m.isZero = false) :
    Decimal.readMagnitude? (Text.positional (Digits.text m.coeff) (m.lead + 1)) = some m := by
  obtain ⟨whole, fraction, hnumeral, hvalue⟩ := positional_numeral hzero
  have hended : Text.Numeral.Ended [] := nofun
  have hread := hnumeral.readMagnitude?_append hended
  rw [List.append_nil] at hread
  rw [hread, Text.Numeral.scaled?, hvalue]

theorem readMagnitude?_scientific (hzero : m.isZero = false) : Decimal.readMagnitude?
    (Text.scientific (Digits.text m.coeff) (Text.ofInt m.lead)) = some m := by
  obtain ⟨whole, fraction, hnumeral, hvalue⟩ := scientific_numeral hzero
  have hended : Text.Numeral.Ended (Text.unit 'e' :: Text.ofInt m.lead) := by
    rintro u ⟨⟩
    decide
  rw [Text.scientific, hnumeral.readMagnitude?_append hended, Text.Numeral.scaled?, if_pos rfl,
    Decimal.readInt?_ofInt, Option.map_some, hvalue]

/-- The digits of a magnitude as they are shown, positional or scientific, are read as it. -/
theorem readMagnitude?_display (hzero : m.isZero = false) (hp : 0 < p)
    (hdigits : m.digitCount ≤ p) :
    Decimal.readMagnitude? (Text.display p (Digits.text m.coeff) (m.lead + 1)) = some m := by
  have hlength : (Digits.text m.coeff).length = m.digitCount := Digits.length_text m.coeff
  by_cases hinside : -(p : ℤ) < m.lead + 1 ∧ m.lead + 1 ≤ p
  · rw [Text.display_positional hp (hlength ▸ hdigits) hinside.1 hinside.2]
    exact readMagnitude?_positional hzero
  · rw [Text.display_scientific hp (by omega), Int.add_sub_cancel]
    exact readMagnitude?_scientific hzero

end Magnitude

namespace Decimal

variable {m : Magnitude} {p : Nat}

/-- What is read as a magnitude begins with a digit. -/
theorem begins_of_readMagnitude? {t : Text} (h : readMagnitude? t = some m) :
    ∃ u rest, t = u :: rest ∧ Text.isDigit u = true := by
  cases t with
  | nil => cases h
  | cons u rest =>
    refine ⟨u, rest, rfl, ?_⟩
    by_contra hdigit
    have hwhole : (u :: rest).takeWhile Text.isDigit = [] := List.takeWhile_cons_of_neg hdigit
    simp only [readMagnitude?, hwhole, List.isEmpty_nil, Bool.true_or, if_true] at h
    cases h

theorem read?_signed {t : Text} (h : readMagnitude? t = some m) (negative : Bool) :
    read? (t.signed negative) = some (ofMagnitude negative m) := by
  obtain ⟨u, rest, rfl, hdigit⟩ := begins_of_readMagnitude? h
  have hne {v : UInt16} (hv : Text.isDigit v = false) : u ≠ v := by
    rintro rfl
    exact Bool.false_ne_true (hv.symm.trans hdigit)
  have hminus : (u == Text.unit '-') = false := beq_false_of_ne (hne rfl)
  have hword : u :: rest ≠ Text.ofString "Infinity" := fun heq => hne rfl (List.cons.inj heq).1
  have hnan : u :: rest ≠ Text.ofString "NaN" := fun heq => hne rfl (List.cons.inj heq).1
  cases negative with
  | false =>
    rw [Text.signed_false, read?]
    simp [hminus, hword, hnan, h]
  | true =>
    have hsigned : Text.unit '-' :: u :: rest ≠ Text.ofString "NaN" := by
      intro heq
      cases (List.cons.inj heq).1
    rw [Text.signed_true, read?]
    simp [hword, hsigned, h]

/-- **A number within the digits that are asked for is read back from what is shown.** -/
theorem read?_display (negative : Bool) (hzero : m.isZero = false) (hp : 0 < p)
    (h : (finite negative m).Within p) :
    read? ((Text.display p (Digits.text m.coeff) (m.lead + 1)).signed negative) =
      some (finite negative m) := by
  obtain ⟨hdigits, hlow, hhigh⟩ := h
  rw [read?_signed (Magnitude.readMagnitude?_display hzero hp hdigits),
    Context.ofMagnitude_of_range negative hzero hlow hhigh]

/-- What is shown of a number within the digits that are asked for is that number. -/
theorem number?_of_display {x : Decimal} {text : Text} {q : ℚ} (hp : 0 < p) (h : x.Within p)
    (hshown : x.display p = .ok text) (hnumber : x.number? = some q) :
    (read? text).bind number? = some q := by
  cases x with
  | nan => cases hnumber
  | infinite negative => cases hnumber
  | finite negative m =>
    simp only [display] at hshown
    split at hshown
    · rename_i hzero
      cases hshown
      have hnone : (finite negative m).number? = some 0 := by
        simp only [number?, Magnitude.toRat_of_isZero hzero, neg_zero, ite_self]
      rw [← hnumber, hnone]
      have hread : read? "0" = some zero := by decide
      rw [hread]
      exact congrArg some (Magnitude.toRat_of_isZero rfl)
    · rename_i hzero
      split at hshown
      · cases hshown
      · have hround : m.round .halfEven p = m := if_pos h.1
        have hrange : ¬ maxExponent < m.lead := Int.not_lt.mpr h.2.2
        simp only [hround, Magnitude.displayDigits, if_neg hrange] at hshown
        cases hshown
        have hread := read?_display negative (by simpa using hzero) hp h
        exact (congrArg (·.bind number?) hread).trans hnumber

end Decimal

theorem le_displayPrecision {n : Nat} {digits : ℚ} (h : n ≤ digits) :
    n ≤ displayPrecision digits := by
  have hden : (0 : ℤ) < digits.den := by exact_mod_cast digits.den_pos
  have hnum : (n : ℤ) * digits.den ≤ digits.num := by
    have hquotient : digits = digits.num / digits.den := (Rat.num_div_den digits).symm
    rw [hquotient, le_div_iff₀ (by exact_mod_cast digits.den_pos)] at h
    exact_mod_cast h
  have hpos : 0 ≤ digits.num := le_trans (by positivity) hnum
  have hdiv : (n : ℤ) ≤ digits.num.tdiv digits.den := by
    rw [Int.tdiv_eq_ediv_of_nonneg hpos]
    exact (Int.le_ediv_iff_mul_le hden).mpr hnum
  unfold displayPrecision
  omega

end Reckoner
