import Mathlib.Algebra.Order.Field.Power
import Mathlib.Data.Rat.Cast.Order
import Mathlib.Tactic.Linarith
import Mathlib.Tactic.NormNum
import Mathlib.Tactic.Positivity
import Mathlib.Tactic.Ring
import Reckoner.Decimal.Rounding

/-!
# Rounding as a relation between numbers

A magnitude stands for a rational number. Which number another one is rounded to, for a number of
significant digits, is said here of the rationals themselves (`Rounding.RoundsTo`), and rounding a
magnitude is shown to do just that (`Magnitude.round_roundsTo`). The leading digit stays where it is
or moves up by one place, and a greater number is not rounded to a smaller one
(`Rounding.RoundsTo.mono`).
-/

namespace Reckoner

theorem cast_pow10 (n : Nat) : ((pow10 n : Nat) : ℚ) = (10 : ℚ) ^ (n : ℤ) := by
  rw [zpow_natCast]
  exact Nat.cast_pow 10 n

theorem zpow10_pos (e : ℤ) : (0 : ℚ) < 10 ^ e := zpow_pos (by norm_num) e

theorem zpow10_add (a b : ℤ) : (10 : ℚ) ^ (a + b) = 10 ^ a * 10 ^ b := zpow_add₀ (by norm_num) a b

theorem zpow10_lt_iff {a b : ℤ} : (10 : ℚ) ^ a < 10 ^ b ↔ a < b :=
  zpow_lt_zpow_iff_right₀ (by norm_num)

/-- A number has no fewer digits than are counted. -/
theorem Digits.pow10_count_le {n : Nat} (h : 0 < n) : pow10 (count n - 1) ≤ n := by
  by_contra hlt
  have hcount : count n ≤ count n - 1 := count_le (Nat.lt_of_not_le hlt)
  have hnone : count n = 0 := by omega
  have hbelow := lt_pow10_count n
  rw [hnone] at hbelow
  exact h.ne' (Nat.lt_one_iff.mp hbelow)

/-! ## The number of a magnitude -/

namespace Magnitude

def toRat (m : Magnitude) : ℚ := m.coeff * (10 : ℚ) ^ m.exp

theorem toRat_stripZeros (k c : Nat) (e : ℤ) :
    ((stripZeros k c e).1 : ℚ) * 10 ^ (stripZeros k c e).2 = c * 10 ^ e := by
  induction k generalizing c e with
  | zero => rfl
  | succ k ih =>
    rw [stripZeros]
    by_cases h : c % 10 = 0
    · rw [if_pos h, ih, zpow10_add]
      have hten : c = 10 * (c / 10) := by omega
      have hcast : (c : ℚ) = 10 * ((c / 10 : Nat) : ℚ) := by exact_mod_cast hten
      rw [hcast, zpow_one]
      ring
    · rw [if_neg h]

theorem toRat_ofScaled (c : Nat) (e : ℤ) : (ofScaled c e).toRat = c * 10 ^ e := by
  unfold ofScaled
  by_cases h : c = 0
  · rw [dif_pos h, h]
    simp [toRat, zero]
  · rw [dif_neg h]
    exact toRat_stripZeros _ c e

variable {m : Magnitude}

theorem coeff_pos (h : m.isZero = false) : 0 < m.coeff := by
  have hne : m.coeff ≠ 0 := by simpa [isZero] using h
  omega

theorem digitCount_pos (h : m.isZero = false) : 0 < m.digitCount := by
  by_contra hzero
  have hcoeff : m.coeff < pow10 m.digitCount := Digits.lt_pow10_count m.coeff
  have hcount : m.digitCount = 0 := by omega
  rw [hcount] at hcoeff
  have hone : pow10 0 = 1 := rfl
  have hpos := coeff_pos h
  omega

/-- The coefficient has no fewer than `digitCount` digits. -/
theorem pow10_le_coeff (h : m.isZero = false) : pow10 (m.digitCount - 1) ≤ m.coeff :=
  Digits.pow10_count_le (coeff_pos h)

theorem zpow_lead_le (h : m.isZero = false) : (10 : ℚ) ^ m.lead ≤ m.toRat := by
  have hpos := digitCount_pos h
  have hlead : m.lead = ((m.digitCount - 1 : Nat) : ℤ) + m.exp := by
    unfold lead
    omega
  have hcoeff : ((pow10 (m.digitCount - 1) : Nat) : ℚ) ≤ m.coeff := by
    exact_mod_cast pow10_le_coeff h
  rw [hlead, zpow10_add, ← cast_pow10, toRat]
  exact mul_le_mul_of_nonneg_right hcoeff (zpow10_pos _).le

theorem toRat_lt_zpow_lead (m : Magnitude) : m.toRat < (10 : ℚ) ^ (m.lead + 1) := by
  have hlead : m.lead + 1 = (m.digitCount : ℤ) + m.exp := by
    unfold lead
    omega
  have hcoeff : (m.coeff : ℚ) < ((pow10 m.digitCount : Nat) : ℚ) := by
    exact_mod_cast Digits.lt_pow10_count m.coeff
  rw [hlead, zpow10_add, ← cast_pow10, toRat]
  exact mul_lt_mul_of_pos_right hcoeff (zpow10_pos _)

theorem toRat_nonneg (m : Magnitude) : 0 ≤ m.toRat :=
  mul_nonneg (Nat.cast_nonneg _) (zpow10_pos _).le

theorem toRat_pos (h : m.isZero = false) : 0 < m.toRat :=
  lt_of_lt_of_le (zpow10_pos _) (zpow_lead_le h)

theorem toRat_coeffAt (m : Magnitude) {e : ℤ} (h : e ≤ m.exp) :
    (m.coeffAt e : ℚ) * 10 ^ e = m.toRat := by
  have hexp : ((m.exp - e).toNat : ℤ) + e = m.exp := by omega
  rw [coeffAt, Nat.cast_mul, cast_pow10, mul_assoc, ← zpow10_add, hexp, toRat]

theorem toRat_of_isZero (h : m.isZero = true) : m.toRat = 0 := by
  have hcoeff : m.coeff = 0 := by simpa [isZero] using h
  rw [toRat, hcoeff]
  simp

theorem isZero_of_toRat_pos (h : 0 < m.toRat) : m.isZero = false := by
  by_contra hzero
  rw [toRat_of_isZero (by simpa using hzero)] at h
  exact lt_irrefl _ h

/-- The leading digit by the size of the number. -/
theorem le_lead {a : ℤ} (h : (10 : ℚ) ^ a ≤ m.toRat) : a ≤ m.lead := by
  have hlt : (10 : ℚ) ^ a < 10 ^ (m.lead + 1) := lt_of_le_of_lt h m.toRat_lt_zpow_lead
  have := zpow10_lt_iff.mp hlt
  omega

theorem lead_lt {b : ℤ} (hzero : m.isZero = false) (h : m.toRat < (10 : ℚ) ^ b) : m.lead < b :=
  zpow10_lt_iff.mp (lt_of_le_of_lt (zpow_lead_le hzero) h)

end Magnitude

/-- The number that a finite decimal stands for. -/
def Decimal.number? : Decimal → Option ℚ
  | finite negative m => some (if negative then -m.toRat else m.toRat)
  | _ => none

/-! ## Rounding -/

namespace Rounding

/-- The integer that a non-negative number is rounded to: the one below it, or the nearest one, of
two nearest ones the even one. -/
def Picks : Rounding → ℚ → Nat → Prop
  | towardZero, x, n => n ≤ x ∧ x < n + 1
  | halfEven, x, n => |x - n| ≤ 1 / 2 ∧ (|x - n| = 1 / 2 → n % 2 = 0)

/-- `r` is `q` rounded to `digits` significant digits, counted from the leading digit of `q`. -/
def RoundsTo (rounding : Rounding) (digits : Nat) (q r : ℚ) : Prop :=
  q = 0 ∧ r = 0 ∨
    ∃ (lead : ℤ) (n : Nat), (10 : ℚ) ^ lead ≤ q ∧ q < 10 ^ (lead + 1) ∧
      rounding.Picks (q / 10 ^ (lead + 1 - digits)) n ∧ r = n * 10 ^ (lead + 1 - digits)

theorem picks_natCast (rounding : Rounding) (n : Nat) : rounding.Picks n n := by
  cases rounding with
  | towardZero => exact ⟨le_refl _, by linarith⟩
  | halfEven =>
    have hzero : |(n : ℚ) - n| = 0 := by simp
    refine ⟨by rw [hzero]; norm_num, fun h => ?_⟩
    rw [hzero] at h
    norm_num at h

theorem lt_half_iff (r : Nat) {den : Nat} (hden : 0 < den) :
    (r : ℚ) / den < 1 / 2 ↔ 2 * r < den := by
  rw [div_lt_div_iff₀ (by exact_mod_cast hden) (by norm_num), one_mul, mul_comm]
  exact_mod_cast Iff.rfl

theorem eq_half_iff (r : Nat) {den : Nat} (hden : 0 < den) :
    (r : ℚ) / den = 1 / 2 ↔ 2 * r = den := by
  rw [div_eq_div_iff (by exact_mod_cast hden.ne') (by norm_num), one_mul, mul_comm]
  exact_mod_cast Iff.rfl

theorem picks_quotient (rounding : Rounding) (num : Nat) {den : Nat} (hden : 0 < den) :
    rounding.Picks (num / den) (rounding.quotient num den) := by
  have hden' : (0 : ℚ) < den := by exact_mod_cast hden
  -- The quotient is its integer part and a fraction below one.
  have hsplit : (num : ℚ) / den = (num / den : Nat) + (num % den : Nat) / (den : ℚ) := by
    rw [div_eq_iff hden'.ne', add_mul, div_mul_cancel₀ _ hden'.ne']
    exact_mod_cast (Nat.div_add_mod' num den).symm
  have hlow : (0 : ℚ) ≤ (num % den : Nat) / (den : ℚ) := by positivity
  have hhigh : ((num % den : Nat) : ℚ) / den < 1 := by
    rw [div_lt_one hden']
    exact_mod_cast Nat.mod_lt num hden
  cases rounding with
  | towardZero =>
    simp only [Picks, quotient]
    constructor <;> linarith
  | halfEven =>
    have hbelow := lt_half_iff (num % den) hden
    have htie := eq_half_iff (num % den) hden
    generalize ((num % den : Nat) : ℚ) / den = f at hsplit hlow hhigh hbelow htie
    simp only [Picks, quotient]
    by_cases hdown : 2 * (num % den) < den ∨ 2 * (num % den) = den ∧ num / den % 2 = 0
    · have hf : |(num : ℚ) / den - (num / den : Nat)| = f := by
        rw [hsplit, add_sub_cancel_left, abs_of_nonneg hlow]
      rw [if_pos hdown, hf]
      constructor
      · rcases hdown with h | ⟨h, -⟩
        · exact (hbelow.mpr h).le
        · exact (htie.mpr h).le
      · intro h
        have heq := htie.mp h
        rcases hdown with hlt | ⟨-, heven⟩
        · omega
        · exact heven
    · have hf : |(num : ℚ) / den - (num / den + 1 : Nat)| = 1 - f := by
        have hdiff : (num : ℚ) / den - (num / den + 1 : Nat) = -(1 - f) := by
          rw [hsplit]
          push_cast
          ring
        rw [hdiff, abs_neg, abs_of_nonneg (by linarith)]
      rw [if_neg hdown, hf]
      constructor
      · have hhalf : ¬ f < 1 / 2 := fun h => hdown (.inl (hbelow.mp h))
        linarith
      · intro h
        have heq := htie.mp (by linarith)
        omega

end Rounding

namespace Magnitude

variable {m : Magnitude}

theorem toRat_div_zpow (m : Magnitude) (e : ℤ) : m.toRat / 10 ^ e = m.coeff * 10 ^ (m.exp - e) := by
  rw [toRat, mul_div_assoc, ← zpow_sub₀ (by norm_num)]

/-- The coefficient over the place of the last digit that is kept. -/
theorem round_picks (m : Magnitude) (rounding : Rounding) (digits : Nat) :
    ∃ n : Nat, rounding.Picks (m.toRat / 10 ^ (m.lead + 1 - digits)) n ∧
      (m.round rounding digits).toRat = n * 10 ^ (m.lead + 1 - digits) := by
  have hplace : m.exp - (m.lead + 1 - digits) = (digits : ℤ) - m.digitCount := by
    unfold lead
    omega
  rw [toRat_div_zpow, hplace, round]
  by_cases hfits : m.digitCount ≤ digits
  · have hshift : (digits : ℤ) - m.digitCount = ((digits - m.digitCount : Nat) : ℤ) := by omega
    refine ⟨m.coeff * pow10 (digits - m.digitCount), ?_, ?_⟩
    · rw [hshift, ← cast_pow10, ← Nat.cast_mul]
      exact rounding.picks_natCast _
    · have hexp : m.exp = ((digits - m.digitCount : Nat) : ℤ) + (m.lead + 1 - digits) := by
        unfold lead
        omega
      rw [if_pos hfits, toRat, Nat.cast_mul, cast_pow10, mul_assoc, ← zpow10_add, ← hexp]
  · have hshift : (digits : ℤ) - m.digitCount = -((m.digitCount - digits : Nat) : ℤ) := by omega
    have hexp : m.exp + (m.digitCount - digits : Nat) = m.lead + 1 - digits := by
      unfold lead
      omega
    refine ⟨rounding.quotient m.coeff (pow10 (m.digitCount - digits)), ?_, ?_⟩
    · rw [hshift, zpow_neg, ← cast_pow10, ← div_eq_mul_inv]
      exact rounding.picks_quotient _ (Nat.pow_pos (by decide))
    · rw [if_neg hfits]
      simp only [toRat_ofScaled, hexp]

theorem round_of_isZero (h : m.isZero = true) (rounding : Rounding) (digits : Nat) :
    m.round rounding digits = m := by
  have hcoeff : m.coeff = 0 := by simpa [isZero] using h
  have hcount : m.digitCount ≤ 0 := Digits.count_le (by rw [hcoeff]; decide)
  rw [round, if_pos (by omega)]

/-- Rounding a magnitude rounds the number that it stands for. -/
theorem round_roundsTo (m : Magnitude) (rounding : Rounding) (digits : Nat) :
    rounding.RoundsTo digits m.toRat (m.round rounding digits).toRat := by
  cases hzero : m.isZero with
  | true =>
    rw [round_of_isZero hzero]
    exact .inl ⟨toRat_of_isZero hzero, toRat_of_isZero hzero⟩
  | false =>
    obtain ⟨n, hpicks, hround⟩ := m.round_picks rounding digits
    exact .inr ⟨m.lead, n, zpow_lead_le hzero, m.toRat_lt_zpow_lead, hpicks, hround⟩

end Magnitude

/-! ## The place of the leading digit -/

/-- No integer below the number is passed by rounding it. -/
theorem Rounding.Picks.ge {rounding : Rounding} {x : ℚ} {n k : Nat} (h : rounding.Picks x n)
    (hx : k ≤ x) : k ≤ n := by
  have hlt : (k : ℚ) < (n + 1 : Nat) := by
    push_cast
    cases rounding with
    | towardZero => linarith [h.2]
    | halfEven => linarith [(abs_le.mp h.1).2]
  exact Nat.lt_succ_iff.mp (Nat.cast_lt.mp hlt)

/-- No integer above the number is passed by rounding it. -/
theorem Rounding.Picks.le {rounding : Rounding} {x : ℚ} {n k : Nat} (h : rounding.Picks x n)
    (hx : x ≤ k) : n ≤ k := by
  have hlt : (n : ℚ) < (k + 1 : Nat) := by
    push_cast
    cases rounding with
    | towardZero => linarith [h.1]
    | halfEven => linarith [(abs_le.mp h.1).1]
  exact Nat.lt_succ_iff.mp (Nat.cast_lt.mp hlt)

/-- The rounded number lies between the powers of ten around the number. -/
theorem Rounding.Picks.bounds {rounding : Rounding} {digits n : Nat} {q : ℚ} {lead : ℤ}
    (hdigits : 0 < digits) (h : rounding.Picks (q / 10 ^ (lead + 1 - digits)) n)
    (hlow : (10 : ℚ) ^ lead ≤ q) (hhigh : q ≤ 10 ^ (lead + 1)) :
    (10 : ℚ) ^ lead ≤ n * 10 ^ (lead + 1 - digits) ∧
      n * 10 ^ (lead + 1 - digits) ≤ (10 : ℚ) ^ (lead + 1) := by
  have hunit := zpow10_pos (lead + 1 - digits)
  have hleast : (10 : ℚ) ^ lead = (pow10 (digits - 1) : Nat) * 10 ^ (lead + 1 - digits) := by
    rw [cast_pow10, ← zpow10_add]
    congr 1
    omega
  have hmost : (10 : ℚ) ^ (lead + 1) = (pow10 digits : Nat) * 10 ^ (lead + 1 - digits) := by
    rw [cast_pow10, ← zpow10_add]
    congr 1
    omega
  have hge : pow10 (digits - 1) ≤ n := by
    apply h.ge
    rwa [le_div_iff₀ hunit, ← hleast]
  have hle : n ≤ pow10 digits := by
    apply h.le
    rwa [div_le_iff₀ hunit, ← hmost]
  rw [hleast, hmost]
  constructor
  · exact mul_le_mul_of_nonneg_right (by exact_mod_cast hge) hunit.le
  · exact mul_le_mul_of_nonneg_right (by exact_mod_cast hle) hunit.le

namespace Magnitude

variable {m : Magnitude}

theorem toRat_round_bounds (hzero : m.isZero = false) (rounding : Rounding) {digits : Nat}
    (hdigits : 0 < digits) : (10 : ℚ) ^ m.lead ≤ (m.round rounding digits).toRat ∧
      (m.round rounding digits).toRat ≤ 10 ^ (m.lead + 1) := by
  obtain ⟨n, hpicks, hround⟩ := m.round_picks rounding digits
  rw [hround]
  exact hpicks.bounds hdigits (zpow_lead_le hzero) m.toRat_lt_zpow_lead.le

theorem lead_round (hzero : m.isZero = false) (rounding : Rounding) {digits : Nat}
    (hdigits : 0 < digits) : (m.round rounding digits).isZero = false ∧
      m.lead ≤ (m.round rounding digits).lead ∧ (m.round rounding digits).lead ≤ m.lead + 1 := by
  obtain ⟨hge, hle⟩ := toRat_round_bounds hzero rounding hdigits
  have hround : (m.round rounding digits).isZero = false :=
    isZero_of_toRat_pos (lt_of_lt_of_le (zpow10_pos _) hge)
  refine ⟨hround, le_lead hge, ?_⟩
  have hlt : (m.round rounding digits).lead < m.lead + 1 + 1 :=
    lead_lt hround (lt_of_le_of_lt hle (zpow10_lt_iff.mpr (by omega)))
  omega

end Magnitude

/-! ## Rounding keeps the order -/

namespace Rounding

variable {rounding : Rounding} {digits : Nat}

theorem Picks.mono {x y : ℚ} {n k : Nat} (hx : rounding.Picks x n) (hy : rounding.Picks y k)
    (h : x ≤ y) : n ≤ k := by
  by_contra hlt
  have hnext : (k : ℚ) + 1 ≤ n := by exact_mod_cast Nat.lt_of_not_le hlt
  cases rounding with
  | towardZero => linarith [hx.1, hy.2]
  | halfEven =>
    -- Both numbers are the tie between two neighbours, which cannot both be even.
    obtain ⟨hnear, heven⟩ := hx
    obtain ⟨hnear', heven'⟩ := hy
    have hlow := (abs_le.mp hnear).1
    have hhigh := (abs_le.mp hnear').2
    have hx : x - n = -(1 / 2) := by linarith
    have hy : y - k = 1 / 2 := by linarith
    have hsucc : n = k + 1 := by
      have : (n : ℚ) = (k + 1 : Nat) := by
        push_cast
        linarith
      exact_mod_cast this
    have hn := heven (by rw [hx, abs_neg, abs_of_pos (by norm_num)])
    have hk := heven' (by rw [hy, abs_of_pos (by norm_num)])
    omega

theorem RoundsTo.of_zero {r : ℚ} (h : rounding.RoundsTo digits 0 r) : r = 0 := by
  rcases h with ⟨-, hr⟩ | ⟨lead, n, hlow, -⟩
  · exact hr
  · exact absurd hlow (not_le.mpr (zpow10_pos lead))

/-- **A greater number is not rounded to a smaller one.** Between the same two powers of ten both
are counted in the same unit, and otherwise a power of ten stands between the results. -/
theorem RoundsTo.mono (hdigits : 0 < digits) {q q' r r' : ℚ} (h : rounding.RoundsTo digits q r)
    (h' : rounding.RoundsTo digits q' r') (hle : q ≤ q') : r ≤ r' := by
  rcases h' with ⟨rfl, rfl⟩ | ⟨lead', n', hlow', hhigh', hpicks', rfl⟩
  · rcases h with ⟨-, rfl⟩ | ⟨lead, n, hlow, -⟩
    · exact le_refl _
    · exact absurd (hlow.trans hle) (not_le.mpr (zpow10_pos lead))
  have hunit' := zpow10_pos (lead' + 1 - digits)
  rcases h with ⟨-, rfl⟩ | ⟨lead, n, hlow, hhigh, hpicks, rfl⟩
  · positivity
  have hlead : lead ≤ lead' := by
    have hlt : (10 : ℚ) ^ lead < 10 ^ (lead' + 1) := lt_of_le_of_lt (hlow.trans hle) hhigh'
    exact Int.lt_add_one_iff.mp (zpow10_lt_iff.mp hlt)
  rcases hlead.eq_or_lt with rfl | hlt
  · have hn : n ≤ n' := hpicks.mono hpicks' (div_le_div_of_nonneg_right hle hunit'.le)
    exact mul_le_mul_of_nonneg_right (by exact_mod_cast hn) hunit'.le
  · calc (n : ℚ) * 10 ^ (lead + 1 - digits) ≤ 10 ^ (lead + 1) :=
          (hpicks.bounds hdigits hlow hhigh.le).2
      _ ≤ 10 ^ lead' := zpow_le_zpow_right₀ (by norm_num) hlt
      _ ≤ n' * 10 ^ (lead' + 1 - digits) := (hpicks'.bounds hdigits hlow' hhigh'.le).1

end Rounding

end Reckoner
