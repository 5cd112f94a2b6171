import Mathlib.Data.Nat.Cast.Field
import Mathlib.Data.Nat.Prime.Basic
import Mathlib.Tactic.FieldSimp
import Reckoner.Decimal.Arithmetic
import Reckoner.Proofs.Displayed

/-!
# Sums and quotients, rounded once

All numbers strictly between two neighbouring multiples of a power of ten are rounded alike, if the
multiples have more digits than are kept: every boundary between two roundings is such a multiple
itself (`Rounding.RoundsTo.of_between`). So it does no harm that a far smaller summand is replaced
by another one, nor that an endless quotient is cut off and marked. A sum and a quotient are the
exact number rounded once, in the range of exponents (`Context.add_rounds`, `Context.div_rounds`).
-/

namespace Reckoner

/-! ## Numbers that are rounded alike -/

namespace Rounding

variable {rounding : Rounding} {digits : Nat}

/-- Halves of integers are where roundings change. -/
theorem Picks.of_between {x y : ℚ} {n : Nat} {k : ℤ} (hx : k < 2 * x ∧ 2 * x < k + 1)
    (hy : k < 2 * y ∧ 2 * y < k + 1) (h : rounding.Picks x n) : rounding.Picks y n := by
  have habove (j : ℤ) (hj : j ≤ 2 * x) : j < 2 * y := by
    have hlt : j < k + 1 := by exact_mod_cast lt_of_le_of_lt hj hx.2
    have hle : (j : ℚ) ≤ k := by exact_mod_cast Int.lt_add_one_iff.mp hlt
    exact lt_of_le_of_lt hle hy.1
  have hbelow (j : ℤ) (hj : 2 * x ≤ j) : 2 * y < j := by
    have hlt : k < j := by exact_mod_cast lt_of_lt_of_le hx.1 hj
    have hle : (k : ℚ) + 1 ≤ j := by exact_mod_cast hlt
    exact lt_of_lt_of_le hy.2 hle
  cases rounding with
  | towardZero =>
    obtain ⟨hlow, hhigh⟩ := h
    have hleast := habove (2 * n) (by push_cast; linarith)
    have hmost := hbelow (2 * n + 2) (by push_cast; linarith)
    push_cast at hleast hmost
    constructor <;> linarith
  | halfEven =>
    obtain ⟨hlow, hhigh⟩ := abs_le.mp h.1
    have hleast := habove (2 * n - 1) (by push_cast; linarith)
    have hmost := hbelow (2 * n + 1) (by push_cast; linarith)
    push_cast at hleast hmost
    have hinside : |y - n| < 1 / 2 := abs_lt.mpr ⟨by linarith, by linarith⟩
    exact ⟨hinside.le, fun htie => absurd htie hinside.ne⟩

/-- Dividing by an integer leaves a number strictly between two neighbouring integers. -/
theorem between_div {x : ℚ} {N d : Nat} (hd : 0 < d) (h : N < x ∧ x < N + 1) :
    ((N / d : Nat) : ℚ) < x / d ∧ x / d < (N / d : Nat) + 1 := by
  have hd' : (0 : ℚ) < d := by exact_mod_cast hd
  have hlow : ((N / d : Nat) : ℚ) * d ≤ N := by exact_mod_cast Nat.div_mul_le_self N d
  have hhigh : (N : ℚ) + 1 ≤ ((N / d : Nat) + 1) * d := by
    exact_mod_cast Nat.lt_mul_of_div_lt (Nat.lt_succ_self (N / d)) hd
  rw [lt_div_iff₀ hd', div_lt_iff₀ hd']
  exact ⟨lt_of_le_of_lt hlow h.1, lt_of_lt_of_le h.2 hhigh⟩

/-- **Numbers strictly between two neighbouring multiples of a power of ten are rounded alike**, if
the multiples have more digits than are kept. -/
theorem RoundsTo.of_between {x y r : ℚ} {N : Nat} (t : ℤ) (hx : N < x ∧ x < N + 1)
    (hy : N < y ∧ y < N + 1) (hN : pow10 digits ≤ N) (h : rounding.RoundsTo digits (x * 10 ^ t) r) :
    rounding.RoundsTo digits (y * 10 ^ t) r := by
  have hunit := zpow10_pos t
  have hpos : 0 < x * 10 ^ t := mul_pos (lt_of_le_of_lt (Nat.cast_nonneg N) hx.1) hunit
  rcases h with ⟨hzero, -⟩ | ⟨lead, n, hlow, hhigh, hpicks, hr⟩
  · exact absurd hzero hpos.ne'
  -- A multiple that is not above one of the numbers is not above the other, and the like.
  have habove (M : Nat) (hM : M * 10 ^ t ≤ x * 10 ^ t) : M * 10 ^ t < y * 10 ^ t := by
    have hlt : M < N + 1 := by
      exact_mod_cast lt_of_le_of_lt (le_of_mul_le_mul_right hM hunit) hx.2
    have hle : (M : ℚ) ≤ N := by exact_mod_cast Nat.lt_succ_iff.mp hlt
    exact mul_lt_mul_of_pos_right (lt_of_le_of_lt hle hy.1) hunit
  have hbelow (M : Nat) (hM : x * 10 ^ t ≤ M * 10 ^ t) : y * 10 ^ t < M * 10 ^ t := by
    have hlt : N < M := by
      exact_mod_cast lt_of_lt_of_le hx.1 (le_of_mul_le_mul_right hM hunit)
    have hle : (N : ℚ) + 1 ≤ M := by exact_mod_cast hlt
    exact mul_lt_mul_of_pos_right (lt_of_lt_of_le hy.2 hle) hunit
  have hlead : digits + t ≤ lead := by
    have hlt : (10 : ℚ) ^ (digits + t) < 10 ^ (lead + 1) := by
      calc (10 : ℚ) ^ (digits + t) = (pow10 digits : Nat) * 10 ^ t := by
            rw [zpow10_add, cast_pow10]
        _ ≤ N * 10 ^ t := mul_le_mul_of_nonneg_right (by exact_mod_cast hN) hunit.le
        _ < x * 10 ^ t := mul_lt_mul_of_pos_right hx.1 hunit
        _ < 10 ^ (lead + 1) := hhigh
    have := zpow10_lt_iff.mp hlt
    omega
  have hpower (e : ℤ) (he : t ≤ e) : (10 : ℚ) ^ e = (pow10 (e - t).toNat : Nat) * 10 ^ t := by
    rw [cast_pow10, ← zpow10_add]
    congr 1
    omega
  refine .inr ⟨lead, n, ?_, ?_, ?_, hr⟩
  · rw [hpower lead (by omega)] at hlow ⊢
    exact (habove _ hlow).le
  · rw [hpower (lead + 1) (by omega)] at hhigh ⊢
    exact hbelow _ hhigh.le
  · -- Half of the unit of the last digit that is kept is a multiple, too.
    obtain ⟨j, hj⟩ : ∃ j : Nat, lead + 1 - digits = j + 1 + t :=
      ⟨(lead - digits - t).toNat, by omega⟩
    have hhalf (z : ℚ) : 2 * (z * 10 ^ t / 10 ^ (lead + 1 - digits)) = z / (5 * pow10 j : Nat) := by
      rw [hj, zpow10_add, zpow10_add, zpow_one, Nat.cast_mul, cast_pow10]
      field_simp
      push_cast
      ring
    have hd : 0 < 5 * pow10 j := Nat.mul_pos (by decide) (Digits.pow10_pos j)
    refine hpicks.of_between (k := (N / (5 * pow10 j) : Nat)) ?_ ?_
    · rw [hhalf]
      exact between_div hd hx
    · rw [hhalf]
      exact between_div hd hy

end Rounding

/-! ## A result rounded once -/

/-- The number with a sign in front. -/
def signedBy (negative : Bool) (q : ℚ) : ℚ := if negative then -q else q

theorem signedBy_zero (negative : Bool) : signedBy negative 0 = 0 := by
  cases negative with
  | false => rfl
  | true => exact neg_zero

theorem abs_signedBy (negative : Bool) (q : ℚ) : |signedBy negative q| = |q| := by
  cases negative with
  | false => rfl
  | true => exact abs_neg q

theorem abs_signedBy_toRat (negative : Bool) (m : Magnitude) :
    |signedBy negative m.toRat| = m.toRat := by
  rw [abs_signedBy, abs_of_nonneg m.toRat_nonneg]

theorem signedBy_mul (negative : Bool) (q c : ℚ) :
    signedBy negative (q * c) = signedBy negative q * c := by
  cases negative with
  | false => rfl
  | true => exact neg_mul_eq_neg_mul q c

/-- A sum has the sign of its first summand, if that one is greater. -/
theorem signedBy_add (p q : Bool) (x y : ℚ) :
    signedBy p x + signedBy q y = signedBy p (if p = q then x + y else x - y) := by
  cases p <;> cases q <;> simp only [signedBy, Bool.false_eq_true, Bool.true_eq_false, if_true,
    if_false] <;> ring

theorem Decimal.exists_of_number {x : Decimal} {q : ℚ} (h : x.number? = some q) :
    ∃ negative m, x = .finite negative m ∧ q = signedBy negative m.toRat := by
  cases x with
  | finite negative m =>
    cases h
    exact ⟨negative, m, rfl, rfl⟩
  | nan => cases h
  | infinite negative => cases h

/-- The decimal is the number rounded once to the working precision, and made infinite or zero
outside of the range of exponents. It has the sign of the number, and a zero may have either. -/
def Context.Rounds (ctx : Context) (q : ℚ) (x : Decimal) : Prop :=
  ∃ (negative : Bool) (m : Magnitude), (q < 0 → negative = true) ∧ (0 < q → negative = false) ∧
    ctx.rounding.RoundsTo ctx.precision |q| m.toRat ∧ x = .ofMagnitude negative m

namespace Context

variable {ctx : Context}

theorem rounds_zero (ctx : Context) (negative : Bool) : ctx.Rounds 0 (.finite negative .zero) := by
  refine ⟨negative, .zero, fun h => absurd h (lt_irrefl _),
    fun h => absurd h (lt_irrefl _), ?_, rfl⟩
  exact .inl ⟨abs_zero, Magnitude.toRat_of_isZero rfl⟩

theorem Rounds.of_roundsTo {q : ℚ} (hq : 0 ≤ q) (negative : Bool) {m : Magnitude}
    (h : ctx.rounding.RoundsTo ctx.precision q m.toRat) :
    ctx.Rounds (signedBy negative q) (.ofMagnitude negative m) := by
  refine ⟨negative, m, ?_, ?_, ?_, rfl⟩
  · intro hneg
    cases negative with
    | false => exact absurd hneg (not_lt.mpr hq)
    | true => rfl
  · intro hpos
    cases negative with
    | false => rfl
    | true => exact absurd hpos (not_lt.mpr (neg_nonpos.mpr hq))
  · rw [abs_signedBy, abs_of_nonneg hq]
    exact h

theorem finish_rounds (ctx : Context) (negative : Bool) (m : Magnitude) :
    ctx.Rounds (signedBy negative m.toRat) (ctx.finish negative m) :=
  .of_roundsTo m.toRat_nonneg negative (m.round_roundsTo ctx.rounding ctx.precision)

/-- An integer over a power of ten, rounded. -/
theorem scaled_rounds (ctx : Context) (n e : ℤ) : ctx.Rounds (n * 10 ^ e)
    (if n = 0 then .zero else ctx.finish (n < 0) (.ofScaled n.natAbs e)) := by
  by_cases hzero : n = 0
  · rw [if_pos hzero, hzero, Int.cast_zero, zero_mul]
    exact ctx.rounds_zero false
  · have hnumber : signedBy (n < 0) (Magnitude.ofScaled n.natAbs e).toRat = n * 10 ^ e := by
      rw [Magnitude.toRat_ofScaled, signedBy_mul, Nat.cast_natAbs]
      congr 1
      by_cases hneg : n < 0
      · rw [decide_eq_true hneg, abs_of_neg hneg, Int.cast_neg]
        exact neg_neg _
      · rw [decide_eq_false hneg, abs_of_nonneg (not_lt.mp hneg)]
        rfl
    rw [if_neg hzero, ← hnumber]
    exact ctx.finish_rounds _ _

/-- Numbers that are rounded alike have the same results. -/
theorem Rounds.of_between {x y : ℚ} {result : Decimal} {N : Nat} {negative : Bool} (t : ℤ)
    (hx : N < x ∧ x < N + 1) (hy : N < y ∧ y < N + 1) (hN : pow10 ctx.precision ≤ N)
    (h : ctx.Rounds (signedBy negative (x * 10 ^ t)) result) :
    ctx.Rounds (signedBy negative (y * 10 ^ t)) result := by
  have hscaled {z : ℚ} (hz : N < z) : 0 < z * 10 ^ t :=
    mul_pos (lt_of_le_of_lt (Nat.cast_nonneg N) hz) (zpow10_pos t)
  obtain ⟨sign, m, hneg, hpos, hrounds, rfl⟩ := h
  have hsign : sign = negative := by
    cases negative with
    | false => exact hpos (hscaled hx.1)
    | true => exact hneg (neg_lt_zero.mpr (hscaled hx.1))
  rw [abs_signedBy, abs_of_pos (hscaled hx.1)] at hrounds
  rw [hsign]
  exact .of_roundsTo (hscaled hy.1).le negative (hrounds.of_between t hx hy hN)

/-! ## Sums -/

theorem signedBy_coeffAt (negative : Bool) (m : Magnitude) {e : ℤ} (h : e ≤ m.exp) :
    (Magnitude.signed negative (m.coeffAt e) : ℚ) * 10 ^ e = signedBy negative m.toRat := by
  rw [← m.toRat_coeffAt h, signedBy_mul]
  congr 1
  cases negative with
  | false => rfl
  | true => exact Int.cast_neg _

/-- The sum that is rounded, with the second summand replaced if it is far smaller. -/
theorem addOrdered_rounds_orTrace (ctx : Context) (p q : Bool) (a b : Magnitude) :
    ctx.Rounds (signedBy p a.toRat +
      signedBy q (b.orTrace (a.boundary ctx.precision)).toRat) (ctx.addOrdered p a q b) := by
  simp only [addOrdered]
  generalize b.orTrace (a.boundary ctx.precision) = rest
  rw [← signedBy_coeffAt p a (min_le_left a.exp rest.exp),
    ← signedBy_coeffAt q rest (min_le_right a.exp rest.exp), ← add_mul, ← Int.cast_add]
  exact ctx.scaled_rounds _ _

/-- Less than one, added to an integer or taken from it. -/
theorem between_of_rest (p q : Bool) {A : Nat} (hA : 0 < A) {rest : ℚ}
    (hrest : 0 < rest ∧ rest < 1) :
    let N := if p = q then A else A - 1
    let s := if p = q then A + rest else A - rest
    N < s ∧ s < N + 1 := by
  intro N s
  by_cases hsame : p = q
  · simp only [N, s, if_pos hsame]
    constructor <;> linarith
  · simp only [N, s, if_neg hsame, Nat.cast_sub hA, Nat.cast_one]
    constructor <;> linarith

/-- Over a place far behind the leading digit, a number has many digits. -/
theorem pow10_le_coeffAt {a : Magnitude} {digits : Nat} {t : ℤ} (ha : a.isZero = false)
    (hplace : t ≤ a.exp) (hlead : t ≤ a.lead - digits - 1) : pow10 (digits + 1) ≤ a.coeffAt t := by
  have hle : ((pow10 (digits + 1) : Nat) : ℚ) * 10 ^ t ≤ a.coeffAt t * 10 ^ t := by
    calc ((pow10 (digits + 1) : Nat) : ℚ) * 10 ^ t = 10 ^ ((digits + 1 : Nat) + t) := by
          rw [cast_pow10, zpow10_add]
      _ ≤ 10 ^ a.lead := zpow_le_zpow_right₀ (by norm_num) (by push_cast; omega)
      _ ≤ a.toRat := Magnitude.zpow_lead_le ha
      _ = a.coeffAt t * 10 ^ t := (a.toRat_coeffAt hplace).symm
  exact_mod_cast le_of_mul_le_mul_right hle (zpow10_pos t)

/-- Added to a number with many digits over some place, all that is smaller than the place makes the
same result. -/
theorem Rounds.of_small {p q : Bool} {a b c : Magnitude} {t : ℤ} {result : Decimal}
    (ha : a.isZero = false) (hplace : t ≤ a.exp) (hlead : t ≤ a.lead - ctx.precision - 1)
    (hb : 0 < b.toRat ∧ b.toRat < 10 ^ t) (hc : 0 < c.toRat ∧ c.toRat < 10 ^ t)
    (h : ctx.Rounds (signedBy p a.toRat + signedBy q b.toRat) result) :
    ctx.Rounds (signedBy p a.toRat + signedBy q c.toRat) result := by
  have hunit := zpow10_pos t
  have hcoeff := pow10_le_coeffAt ha hplace hlead
  have hpow := Digits.pow10_pos ctx.precision
  rw [pow10_succ] at hcoeff
  have hover (m : Magnitude) : signedBy p a.toRat + signedBy q m.toRat = signedBy p
      ((if p = q then a.coeffAt t + m.toRat / 10 ^ t else a.coeffAt t - m.toRat / 10 ^ t) *
        10 ^ t) := by
    have hrest : signedBy q m.toRat = signedBy q (m.toRat / 10 ^ t) * 10 ^ t := by
      rw [← signedBy_mul, div_mul_cancel₀ _ hunit.ne']
    rw [← a.toRat_coeffAt hplace, hrest, signedBy_mul, signedBy_mul, ← add_mul, signedBy_add]
  have hbelow {m : Magnitude} (hm : 0 < m.toRat ∧ m.toRat < 10 ^ t) :
      0 < m.toRat / 10 ^ t ∧ m.toRat / 10 ^ t < 1 :=
    ⟨div_pos hm.1 hunit, (div_lt_one hunit).mpr hm.2⟩
  rw [hover] at h ⊢
  refine h.of_between t (between_of_rest p q (by omega) (hbelow hb))
    (between_of_rest p q (by omega) (hbelow hc)) ?_
  split <;> omega

/-- The sum of two numbers is rounded once, also where the smaller one is replaced. -/
theorem addOrdered_rounds (p q : Bool) {a b : Magnitude} (ha : a.isZero = false)
    (hb : b.isZero = false) :
    ctx.Rounds (signedBy p a.toRat + signedBy q b.toRat) (ctx.addOrdered p a q b) := by
  have hsum := ctx.addOrdered_rounds_orTrace p q a b
  by_cases hsmall : b.lead < a.boundary ctx.precision
  · have htrace : (b.orTrace (a.boundary ctx.precision)).toRat =
        10 ^ (a.boundary ctx.precision - 1) := by
      rw [Magnitude.orTrace, if_pos hsmall, Magnitude.toRat_ofScaled, Nat.cast_one, one_mul]
    refine hsum.of_small (t := a.boundary ctx.precision) ha (min_le_left _ _)
      (min_le_right _ _) ?_ ?_
    · rw [htrace]
      exact ⟨zpow10_pos _, zpow10_lt_iff.mpr (by omega)⟩
    · refine ⟨Magnitude.toRat_pos hb, ?_⟩
      calc b.toRat < 10 ^ (b.lead + 1) := b.toRat_lt_zpow_lead
        _ ≤ 10 ^ a.boundary ctx.precision := zpow_le_zpow_right₀ (by norm_num) hsmall
  · rwa [Magnitude.orTrace, if_neg hsmall] at hsum

theorem addFinite_rounds (ctx : Context) (p q : Bool) (a b : Magnitude) :
    ctx.Rounds (signedBy p a.toRat + signedBy q b.toRat) (ctx.addFinite p a q b) := by
  have hzero {m : Magnitude} (h : m.isZero = true) (negative : Bool) :
      signedBy negative m.toRat = 0 := by
    rw [Magnitude.toRat_of_isZero h, signedBy_zero]
  unfold addFinite
  cases ha : a.isZero with
  | true =>
    cases hb : b.isZero with
    | true =>
      rw [hzero ha, hzero hb, add_zero]
      exact ctx.rounds_zero _
    | false =>
      rw [hzero ha, zero_add]
      exact ctx.finish_rounds q b
  | false =>
    cases hb : b.isZero with
    | true =>
      rw [hzero hb, add_zero]
      exact ctx.finish_rounds p a
    | false =>
      by_cases hlead : a.lead < b.lead
      · simp only [if_pos hlead]
        rw [add_comm]
        exact addOrdered_rounds q p hb ha
      · simp only [if_neg hlead]
        exact addOrdered_rounds p q ha hb

/-- **A sum is the exact sum rounded once.** -/
theorem add_rounds (ctx : Context) {x y : Decimal} {u v : ℚ} (hx : x.number? = some u)
    (hy : y.number? = some v) : ctx.Rounds (u + v) (ctx.add x y) := by
  obtain ⟨p, a, rfl, rfl⟩ := Decimal.exists_of_number hx
  obtain ⟨q, b, rfl, rfl⟩ := Decimal.exists_of_number hy
  exact ctx.addFinite_rounds p q a b

end Context

/-! ## Quotients -/

/-- What divides a power of ten divides one with a small exponent. -/
theorem dvd_pow10_log2 {d k : Nat} (h : d ∣ pow10 k) : d ∣ pow10 d.log2 := by
  have hsplit (k : Nat) : pow10 k = 2 ^ k * 5 ^ k := Nat.mul_pow 2 5 k
  rw [hsplit] at h ⊢
  obtain ⟨twos, fives, htwos, hfives, rfl⟩ := Nat.dvd_mul.mp h
  obtain ⟨i, -, rfl⟩ := (Nat.dvd_prime_pow Nat.prime_two).mp htwos
  obtain ⟨j, -, rfl⟩ := (Nat.dvd_prime_pow Nat.prime_five).mp hfives
  have hpos : 2 ^ i * 5 ^ j ≠ 0 := by positivity
  have hi : i ≤ (2 ^ i * 5 ^ j).log2 :=
    (Nat.le_log2 hpos).mpr (Nat.le_mul_of_pos_right _ (by positivity))
  have hj : j ≤ (2 ^ i * 5 ^ j).log2 := by
    refine (Nat.le_log2 hpos).mpr ?_
    calc 2 ^ j ≤ 5 ^ j := Nat.pow_le_pow_left (by decide) j
      _ ≤ 2 ^ i * 5 ^ j := Nat.le_mul_of_pos_left _ (by positivity)
  exact Nat.mul_dvd_mul (pow_dvd_pow 2 hi) (pow_dvd_pow 5 hj)

theorem between_of_not_dvd {n d : Nat} (hd : 0 < d) (h : ¬ d ∣ n) :
    ((n / d : Nat) : ℚ) < n / d ∧ (n : ℚ) / d < (n / d : Nat) + 1 := by
  have hd' : (0 : ℚ) < d := by exact_mod_cast hd
  have hsplit := Nat.div_add_mod' n d
  have hrest : 0 < n % d := Nat.pos_of_ne_zero fun hzero => h (Nat.dvd_of_mod_eq_zero hzero)
  have hless : n % d < d := Nat.mod_lt n hd
  have hlow : n / d * d < n := by omega
  have hhigh : n < (n / d + 1) * d := by
    rw [Nat.add_mul]
    omega
  rw [lt_div_iff₀ hd', div_lt_iff₀ hd']
  exact ⟨by exact_mod_cast hlow, by exact_mod_cast hhigh⟩

namespace Magnitude

variable {a b : Magnitude}

/-- A quotient in lowest terms. -/
theorem toRat_div_toRat (hb : b.isZero = false) : a.toRat / b.toRat =
    ((a.coeff / Nat.gcd a.coeff b.coeff : Nat) : ℚ) / (b.coeff / Nat.gcd a.coeff b.coeff : Nat) *
      10 ^ (a.exp - b.exp) := by
  have hg : ((Nat.gcd a.coeff b.coeff : Nat) : ℚ) ≠ 0 := by
    exact_mod_cast (Nat.gcd_pos_of_pos_right a.coeff (coeff_pos hb)).ne'
  rw [Nat.cast_div (Nat.gcd_dvd_left _ _) hg, Nat.cast_div (Nat.gcd_dvd_right _ _) hg,
    div_div_div_cancel_right₀ hg, toRat, toRat, mul_div_mul_comm, zpow_sub₀ (by norm_num)]

/-- **A quotient is exact, or cut off and marked**: behind more digits than asked for, where the
exact one goes on, it has one more digit. -/
theorem quotient_cases (digits : Nat) (ha : a.isZero = false) (hb : b.isZero = false) :
    (a.quotient digits b).toRat = a.toRat / b.toRat ∨
    ∃ (N : Nat) (w : ℚ) (t : ℤ), pow10 digits ≤ N ∧ (N < w ∧ w < N + 1) ∧
      a.toRat / b.toRat = w * 10 ^ t ∧ (a.quotient digits b).toRat = (N + 1 / 10) * 10 ^ t := by
  have hg : 0 < Nat.gcd a.coeff b.coeff := Nat.gcd_pos_of_pos_right a.coeff (coeff_pos hb)
  have hnum : 0 < a.coeff / Nat.gcd a.coeff b.coeff :=
    Nat.div_pos (Nat.gcd_le_left _ (coeff_pos ha)) hg
  have hden : 0 < b.coeff / Nat.gcd a.coeff b.coeff :=
    Nat.div_pos (Nat.gcd_le_right _ (coeff_pos hb)) hg
  have hcoprime := Nat.coprime_div_gcd_div_gcd hg
  simp only [toRat_div_toRat hb, quotient]
  generalize a.coeff / Nat.gcd a.coeff b.coeff = num at hnum hcoprime ⊢
  generalize b.coeff / Nat.gcd a.coeff b.coeff = den at hden hcoprime ⊢
  generalize a.exp - b.exp = exp
  have hden' : (den : ℚ) ≠ 0 := by exact_mod_cast hden.ne'
  by_cases hends : pow10 den.log2 % den = 0
  · left
    have hdvd : den ∣ pow10 den.log2 := Nat.dvd_of_mod_eq_zero hends
    rw [if_pos hends, toRat_ofScaled, Nat.cast_mul, Nat.cast_div hdvd hden', cast_pow10,
      zpow_sub₀ (by norm_num)]
    field_simp
  · right
    rw [if_neg hends, toRat_ofScaled]
    generalize hshift : digits + 1 + Digits.count den - Digits.count num = shift
    refine ⟨num * pow10 shift / den, (num * pow10 shift : Nat) / (den : ℚ),
      exp - shift, ?_, ?_, ?_, ?_⟩
    · -- There are enough digits in front of the place where it is cut off.
      rw [Nat.le_div_iff_mul_le hden]
      calc pow10 digits * den ≤ pow10 digits * pow10 (Digits.count den) :=
            Nat.mul_le_mul_left _ (Digits.lt_pow10_count den).le
        _ = pow10 (digits + Digits.count den) := (Nat.pow_add 10 _ _).symm
        _ ≤ pow10 (Digits.count num - 1 + shift) := pow10_le_pow10 (by omega)
        _ = pow10 (Digits.count num - 1) * pow10 shift := Nat.pow_add 10 _ _
        _ ≤ num * pow10 shift := Nat.mul_le_mul_right _ (Digits.pow10_count_le hnum)
    · apply between_of_not_dvd hden
      intro hdvd
      exact hends (Nat.mod_eq_zero_of_dvd (dvd_pow10_log2 (hcoprime.symm.dvd_of_dvd_mul_left hdvd)))
    · rw [Nat.cast_mul, cast_pow10, zpow_sub₀ (by norm_num)]
      field_simp
    · rw [zpow_sub_one₀ (by norm_num)]
      push_cast
      ring

end Magnitude

namespace Context

theorem quotient_rounds (ctx : Context) (negative : Bool) {a b : Magnitude} (ha : a.isZero = false)
    (hb : b.isZero = false) : ctx.Rounds (signedBy negative (a.toRat / b.toRat))
      (ctx.finish negative (a.quotient ctx.precision b)) := by
  have hfinish := ctx.finish_rounds negative (a.quotient ctx.precision b)
  rcases Magnitude.quotient_cases ctx.precision ha hb with hexact |
    ⟨N, w, t, hN, hw, hquotient, hmarked⟩
  · rwa [hexact] at hfinish
  · rw [hmarked] at hfinish
    rw [hquotient]
    exact hfinish.of_between t ⟨by linarith, by linarith⟩ hw hN

/-- **A quotient is the exact quotient rounded once.** -/
theorem div_rounds (ctx : Context) {x y : Decimal} {u v : ℚ} (hx : x.number? = some u)
    (hy : y.number? = some v) (hv : v ≠ 0) : ctx.Rounds (u / v) (ctx.div x y) := by
  obtain ⟨p, a, rfl, rfl⟩ := Decimal.exists_of_number hx
  obtain ⟨q, b, rfl, rfl⟩ := Decimal.exists_of_number hy
  have hb : b.isZero = false := by
    by_contra hzero
    apply hv
    rw [Magnitude.toRat_of_isZero (Bool.eq_true_of_not_eq_false hzero), signedBy_zero]
  have hsigns : signedBy p a.toRat / signedBy q b.toRat =
      signedBy (p != q) (a.toRat / b.toRat) := by
    cases p <;> cases q <;> simp [signedBy, neg_div, div_neg]
  rw [hsigns]
  cases ha : a.isZero with
  | true =>
    have hzero : signedBy (p != q) (a.toRat / b.toRat) = 0 := by
      rw [Magnitude.toRat_of_isZero ha, zero_div, signedBy_zero]
    simp only [div, ha, hb, hzero]
    exact ctx.rounds_zero _
  | false =>
    simp only [div, ha, hb]
    exact ctx.quotient_rounds _ ha hb

end Context
end Reckoner
