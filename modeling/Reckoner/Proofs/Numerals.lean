import Reckoner.Decimal.Notation
import Reckoner.Proofs.Precision
import Reckoner.Proofs.Rounding

/-!
# The value of a numeral

A numeral is digits, or digits, a point and digits. Its value is that of the digits in front of the
point and of those behind it, each a tenth of what it would be one place further left. Reading all
digits as one integer and moving the point afterwards comes to the same (`toRat_ofNumeral`). A
literal is that value rounded, which is in the exponent range for every text that is not absurdly
long (`literal_of_numeral`).
-/

namespace Reckoner

namespace Text

/-- The value of the digits behind the point. -/
def fractionValue : Text → ℚ
  | [] => 0
  | u :: rest => (Digits.ofUnit u + fractionValue rest) / 10

/-- The value of a numeral, by the digits in front of the point and those behind it. -/
def numeralValue (whole fraction : Text) : ℚ := Digits.read whole + fractionValue fraction

end Text

namespace Digits

theorem cast_foldl (fraction : Text) (n : Nat) :
    (((fraction.map ofUnit).foldl (fun n d => 10 * n + d) n : Nat) : ℚ) =
      (n + Text.fractionValue fraction) * 10 ^ (fraction.length : ℤ) := by
  induction fraction generalizing n with
  | nil => simp [Text.fractionValue]
  | cons u rest ih =>
    have hlength : ((u :: rest).length : ℤ) = rest.length + 1 := by simp
    rw [List.map_cons, List.foldl_cons, ih, hlength, zpow10_add, zpow_one, Text.fractionValue]
    push_cast
    ring

theorem read_append (whole fraction : Text) : ((read (whole ++ fraction) : Nat) : ℚ) =
    Text.numeralValue whole fraction * 10 ^ (fraction.length : ℤ) := by
  rw [read, value, List.map_append, List.foldl_append, cast_foldl]
  rfl

theorem ofUnit_le {u : UInt16} (h : Text.isDigit u = true) : ofUnit u ≤ 9 := by
  have hnine : u ≤ Text.unit '9' := by
    simp only [Text.isDigit, Bool.and_eq_true, decide_eq_true_eq] at h
    exact h.2
  have hnat : u.toNat ≤ (Text.unit '9').toNat := UInt16.le_iff_toNat_le.mp hnine
  have hcode : (Text.unit '9').toNat = 57 := rfl
  unfold ofUnit
  omega

theorem read_lt {t : Text} (h : ∀ u ∈ t, Text.isDigit u = true) : read t < pow10 t.length := by
  have hrun (t : Text) (h : ∀ u ∈ t, Text.isDigit u = true) (n k : Nat) (hn : n < pow10 k) :
      (t.map ofUnit).foldl (fun n d => 10 * n + d) n < pow10 (k + t.length) := by
    induction t generalizing n k with
    | nil => exact hn
    | cons u rest ih =>
      have hdigit := ofUnit_le (h u List.mem_cons_self)
      have hnext : 10 * n + ofUnit u < pow10 (k + 1) := by
        rw [pow10_succ]
        omega
      have hrest := ih (fun v hv => h v (List.mem_cons_of_mem u hv)) _ (k + 1) hnext
      rw [List.length_cons, Nat.add_comm rest.length 1, ← Nat.add_assoc]
      exact hrest
  have hread := hrun t h 0 0 (by decide)
  rwa [Nat.zero_add] at hread

end Digits

namespace Text

variable {whole fraction : Text}

theorem numeralValue_lt (hwhole : ∀ u ∈ whole, isDigit u = true)
    (hfraction : ∀ u ∈ fraction, isDigit u = true) :
    numeralValue whole fraction < 10 ^ (whole.length : ℤ) := by
  have hdigits : ∀ u ∈ whole ++ fraction, isDigit u = true := by
    intro u hu
    rcases List.mem_append.mp hu with hu | hu
    · exact hwhole u hu
    · exact hfraction u hu
  have hread : ((Digits.read (whole ++ fraction) : Nat) : ℚ) <
      ((pow10 (whole ++ fraction).length : Nat) : ℚ) := by
    exact_mod_cast Digits.read_lt hdigits
  rw [Digits.read_append, cast_pow10, List.length_append, Nat.cast_add, zpow10_add] at hread
  exact lt_of_mul_lt_mul_right hread (zpow10_pos _).le

/-- Nothing but zero is below the last place. -/
theorem le_numeralValue (h : 0 < numeralValue whole fraction) :
    (10 : ℚ) ^ (-(fraction.length : ℤ)) ≤ numeralValue whole fraction := by
  have hscaled := mul_pos h (zpow10_pos fraction.length)
  rw [← Digits.read_append] at hscaled
  have hone : (1 : ℚ) ≤ (Digits.read (whole ++ fraction) : Nat) := by
    exact_mod_cast Nat.cast_pos.mp hscaled
  rw [Digits.read_append] at hone
  rw [zpow_neg, inv_le_iff_one_le_mul₀ (zpow10_pos _)]
  exact hone

end Text

namespace Magnitude

variable {whole fraction : Text}

theorem toRat_ofNumeral (whole fraction : Text) :
    (ofNumeral whole fraction 0).toRat = Text.numeralValue whole fraction := by
  rw [ofNumeral, toRat_ofScaled, Digits.read_append, mul_assoc, ← zpow10_add]
  have hzero : (fraction.length : ℤ) + (0 - fraction.length) = 0 := by omega
  rw [hzero, zpow_zero, mul_one]

/-- The leading digit is one of the digits that are written. -/
theorem lead_ofNumeral (hwhole : ∀ u ∈ whole, Text.isDigit u = true)
    (hfraction : ∀ u ∈ fraction, Text.isDigit u = true)
    (hzero : (ofNumeral whole fraction 0).isZero = false) :
    -(fraction.length : ℤ) ≤ (ofNumeral whole fraction 0).lead ∧
      (ofNumeral whole fraction 0).lead < whole.length := by
  have hpos : 0 < Text.numeralValue whole fraction := by
    rw [← toRat_ofNumeral]
    exact lt_of_lt_of_le (zpow10_pos _) (zpow_lead_le hzero)
  constructor
  · apply le_lead
    rw [toRat_ofNumeral]
    exact Text.le_numeralValue hpos
  · apply lead_lt hzero
    rw [toRat_ofNumeral]
    exact Text.numeralValue_lt hwhole hfraction

end Magnitude

/-- The literal of a numeral: its value, to 78 significant digits. The exponent range is no concern
unless the numeral has more digits than the range has exponents. -/
def Literal (rounding : Rounding) (whole fraction : Text) (value : Decimal) : Prop :=
  ∃ m : Magnitude, rounding.RoundsTo 78 (Text.numeralValue whole fraction) m.toRat ∧
    value = .ofMagnitude false m ∧
    ((whole.length + fraction.length : Nat) ≤ Decimal.maxExponent → value = .finite false m)

theorem literal_of_numeral (rounding : Rounding) {whole fraction : Text}
    (hwhole : ∀ u ∈ whole, Text.isDigit u = true)
    (hfraction : ∀ u ∈ fraction, Text.isDigit u = true) :
    Literal rounding whole fraction (.ofMagnitude false
      ((Magnitude.ofNumeral whole fraction 0).round rounding Context.standardPrecision)) := by
  have hrounds := (Magnitude.ofNumeral whole fraction 0).round_roundsTo rounding
    Context.standardPrecision
  rw [Magnitude.toRat_ofNumeral] at hrounds
  refine ⟨_, hrounds, rfl, fun hlength => ?_⟩
  cases hzero : (Magnitude.ofNumeral whole fraction 0).isZero with
  | true => rw [Magnitude.round_of_isZero hzero, Decimal.ofMagnitude, if_pos hzero]
  | false =>
    obtain ⟨hlow, hhigh⟩ := Magnitude.lead_ofNumeral hwhole hfraction hzero
    obtain ⟨hround, hge, hle⟩ := Magnitude.lead_round hzero rounding
      (show 0 < Context.standardPrecision by decide)
    exact Context.ofMagnitude_of_range false hround (by omega) (by omega)

end Reckoner
