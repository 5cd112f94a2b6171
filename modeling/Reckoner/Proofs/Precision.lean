import Reckoner.Decimal.Arithmetic

/-!
# Telling precisions apart

The numbers 1, 1.1, 1.11 and so on have one digit more each, and a tenth of one and 1 is the next. A
context finds the next as long as it has a digit for it (`grow_ones`). At its precision the new
digit is cut off, whichever way it rounds, and the number stays (`grow_full`). So a number that
stays in one context grows in every context of a higher precision.
-/

namespace Reckoner

theorem Digits.count_eq {n k : Nat} (low : pow10 k ≤ n) (high : n < pow10 (k + 1)) :
    count n = k + 1 := by
  have hle : count n ≤ k + 1 := count_le high
  have hlt : k < count n := lt_of_pow10_lt (Nat.lt_of_le_of_lt low (lt_pow10_count n))
  omega

theorem pow10_succ (k : Nat) : pow10 (k + 1) = pow10 k * 10 := rfl

/-- The number that is written with `k` ones. -/
def repunit : Nat → Nat
  | 0 => 0
  | k + 1 => 10 * repunit k + 1

theorem repunit_succ (k : Nat) : repunit (k + 1) = pow10 k + repunit k := by
  induction k with
  | zero => rfl
  | succ k ih =>
    have hstep : repunit (k + 1 + 1) = 10 * repunit (k + 1) + 1 := rfl
    have hlast : repunit (k + 1) = 10 * repunit k + 1 := rfl
    have hpow := pow10_succ k
    omega

theorem repunit_lt (k : Nat) : repunit k < pow10 k := by
  induction k with
  | zero => decide
  | succ k ih =>
    have hstep : repunit (k + 1) = 10 * repunit k + 1 := rfl
    have hpow := pow10_succ k
    omega

theorem repunit_mod (k : Nat) : repunit (k + 1) % 10 ≠ 0 := by
  rw [repunit]
  omega

namespace Magnitude

theorem ofScaled_of_mod {c : Nat} (e : Int) (h : c % 10 ≠ 0) : ofScaled c e = ⟨c, e, .inl h⟩ := by
  have hstrip (k : Nat) : stripZeros k c e = (c, e) := by
    cases k with
    | zero => rfl
    | succ k => rw [stripZeros, if_neg h]
  have hpos : ¬ c = 0 := by
    rintro rfl
    exact h rfl
  unfold ofScaled
  rw [dif_neg hpos]
  simp only [hstrip]

/-- One, a point, and `k` more ones. -/
def ones (k : Nat) : Magnitude := ⟨repunit (k + 1), -k, .inl (repunit_mod k)⟩

/-- A tenth of that. -/
def tenthOfOnes (k : Nat) : Magnitude := ⟨repunit (k + 1), -k - 1, .inl (repunit_mod k)⟩

theorem count_repunit (k : Nat) : Digits.count (repunit (k + 1)) = k + 1 :=
  Digits.count_eq (by rw [repunit_succ]; omega) (repunit_lt (k + 1))

theorem lead_ones (k : Nat) : (ones k).lead = 0 := by
  simp only [lead, digitCount, ones, count_repunit]
  omega

theorem lead_tenthOfOnes (k : Nat) : (tenthOfOnes k).lead = -1 := by
  simp only [lead, digitCount, tenthOfOnes, count_repunit]
  omega

theorem isZero_ones (k : Nat) : (ones k).isZero = false := by
  simp [isZero, ones, repunit]

theorem isZero_tenthOfOnes (k : Nat) : (tenthOfOnes k).isZero = false := by
  simp [isZero, tenthOfOnes, repunit]

/-- The last of `k + 2` ones is cut off. -/
theorem round_ones (rounding : Rounding) (k : Nat) :
    (ones (k + 1)).round rounding (k + 1) = ones k := by
  have hcount : (ones (k + 1)).digitCount = k + 2 := count_repunit (k + 1)
  have hquotient : rounding.quotient (repunit (k + 2)) (pow10 1) = repunit (k + 1) := by
    have hstep : repunit (k + 2) = 10 * repunit (k + 1) + 1 := rfl
    have hten : pow10 1 = 10 := rfl
    rw [hstep, hten]
    cases rounding with
    | towardZero => simp only [Rounding.quotient]; omega
    | halfEven =>
      simp only [Rounding.quotient]
      rw [if_pos (by omega)]
      omega
  have hexcess : k + 2 - (k + 1) = 1 := by omega
  rw [round, if_neg (by omega), hcount, hexcess]
  simp only [ones, hquotient, ofScaled_of_mod _ (repunit_mod k)]
  congr 1
  omega

end Magnitude

namespace Context

open Magnitude

def tenth : Decimal := .finite false ⟨1, -1, .inl (by decide)⟩

/-- A tenth, and one. -/
def grow (ctx : Context) (x : Decimal) : Decimal := ctx.add (ctx.mul x tenth) .one

theorem ofMagnitude_of_range {m : Magnitude} (negative : Bool) (hzero : m.isZero = false)
    (hlow : -Decimal.maxExponent ≤ m.lead) (hhigh : m.lead ≤ Decimal.maxExponent) :
    Decimal.ofMagnitude negative m = .finite negative m := by
  rw [Decimal.ofMagnitude, hzero, if_neg (by decide), if_neg (by omega), if_neg (by omega)]

theorem finish_of_fits {ctx : Context} {m : Magnitude} (negative : Bool)
    (h : m.digitCount ≤ ctx.precision) : ctx.finish negative m = .ofMagnitude negative m := by
  rw [finish, Magnitude.round, if_pos h]

theorem ofMagnitude_ones (k : Nat) : Decimal.ofMagnitude false (ones k) =
    .finite false (ones k) := by
  have hlead := lead_ones k
  exact ofMagnitude_of_range false (isZero_ones k) (by rw [hlead]; decide) (by rw [hlead]; decide)

theorem mul_tenth {ctx : Context} {k : Nat} (h : k < ctx.precision) :
    ctx.mul (.finite false (ones k)) tenth = .finite false (tenthOfOnes k) := by
  have hproduct : Magnitude.ofScaled (repunit (k + 1) * 1) (-k + -1) = tenthOfOnes k := by
    rw [Nat.mul_one, ofScaled_of_mod _ (repunit_mod k)]
    rfl
  have hlead := lead_tenthOfOnes k
  have hdigits : (tenthOfOnes k).digitCount ≤ ctx.precision :=
    Nat.le_trans (Nat.le_of_eq (count_repunit k)) h
  simp only [mul, tenth, ones, hproduct]
  rw [finish_of_fits _ hdigits]
  exact ofMagnitude_of_range _ (isZero_tenthOfOnes k)
    (by rw [hlead]; decide) (by rw [hlead]; decide)

/-- The sum before it is rounded. -/
theorem add_one (ctx : Context) (k : Nat) :
    ctx.add (.finite false (tenthOfOnes k)) .one = ctx.finish false (ones (k + 1)) := by
  have hone : Magnitude.one.lead = 0 := by decide
  have hzero : Magnitude.one.isZero = false := rfl
  have htrace : (tenthOfOnes k).orTrace (Magnitude.one.boundary ctx.precision) =
      tenthOfOnes k := by
    rw [orTrace, if_neg]
    rw [lead_tenthOfOnes, boundary, hone]
    have hexp : Magnitude.one.exp = 0 := rfl
    omega
  have hexp : min Magnitude.one.exp (tenthOfOnes k).exp = -(k + 1 : Nat) := by
    simp only [Magnitude.one, tenthOfOnes]
    omega
  have hsum : Magnitude.signed false (Magnitude.one.coeffAt (-(k + 1 : Nat))) +
      Magnitude.signed false ((tenthOfOnes k).coeffAt (-(k + 1 : Nat))) = repunit (k + 2) := by
    have hshift : ((0 : Int) - -(k + 1 : Nat)).toNat = k + 1 := by omega
    have hnone : (-(k : Int) - 1 - -(k + 1 : Nat)).toNat = 0 := by omega
    have hpow : pow10 0 = 1 := rfl
    simp only [signed, coeffAt, Magnitude.one, tenthOfOnes, hshift, hnone,
      hpow, repunit_succ (k + 1)]
    simp
  simp only [add, Decimal.one, addFinite, isZero_tenthOfOnes, hzero, lead_tenthOfOnes, hone]
  rw [if_pos (by decide)]
  simp only [addOrdered, htrace, hexp, hsum]
  have hpos : 0 < repunit (k + 2) := by rw [repunit]; omega
  rw [if_neg (by omega), decide_eq_false (by omega), Int.natAbs_natCast,
    ofScaled_of_mod _ (repunit_mod (k + 1))]
  rfl

/-- With a digit to spare, the number gets one more. -/
theorem grow_ones {ctx : Context} {k : Nat} (h : k + 1 < ctx.precision) :
    ctx.grow (.finite false (ones k)) = .finite false (ones (k + 1)) := by
  have hdigits : (ones (k + 1)).digitCount ≤ ctx.precision :=
    Nat.le_trans (Nat.le_of_eq (count_repunit (k + 1))) h
  rw [grow, mul_tenth (by omega), add_one, finish_of_fits _ hdigits, ofMagnitude_ones]

/-- At the precision, the number stays. -/
theorem grow_full {ctx : Context} {k : Nat} (h : ctx.precision = k + 1) :
    ctx.grow (.finite false (ones k)) = .finite false (ones k) := by
  rw [grow, mul_tenth (by omega), add_one, finish, h, round_ones, ofMagnitude_ones]

theorem orTrace_of_lead (ctx : Context) {a b : Magnitude} (h : a.lead = b.lead) :
    b.orTrace (a.boundary ctx.precision) = b := by
  rw [orTrace, boundary, if_neg (by omega)]

theorem sub_self_ones (ctx : Context) (k : Nat) :
    ctx.sub (.finite false (ones k)) (.finite false (ones k)) = .zero := by
  simp only [sub, Decimal.neg, add, addFinite, isZero_ones, Int.lt_irrefl, if_false, addOrdered,
    orTrace_of_lead, signed, Bool.not_false, Bool.false_eq_true, if_true, Int.add_right_neg]

theorem isNegative_ofMagnitude (negative : Bool) (m : Magnitude) :
    (Decimal.ofMagnitude negative m).isNegative = negative := by
  unfold Decimal.ofMagnitude
  split
  · rfl
  · split
    · rfl
    · split <;> rfl

/-- The difference is below zero, and has its sign even where it is too small for the range. -/
theorem sub_ones_succ_ne (ctx : Context) (k : Nat) :
    ctx.sub (.finite false (ones k)) (.finite false (ones (k + 1))) ≠ .zero := by
  have hlead : (ones k).lead = (ones (k + 1)).lead := by rw [lead_ones, lead_ones]
  have hexp : min (ones k).exp (ones (k + 1)).exp = -(k + 1 : Nat) := by
    simp only [ones]
    omega
  have hdifference : signed false ((ones k).coeffAt (-(k + 1 : Nat))) +
      signed true ((ones (k + 1)).coeffAt (-(k + 1 : Nat))) = -1 := by
    have hshift : (-(k : Int) - -(k + 1 : Nat)).toNat = 1 := by omega
    have hnone : (-((k + 1 : Nat) : Int) - -(k + 1 : Nat)).toNat = 0 := by omega
    have hten : pow10 1 = 10 := rfl
    have hunit : pow10 0 = 1 := rfl
    have hstep : repunit (k + 1 + 1) = 10 * repunit (k + 1) + 1 := rfl
    simp only [signed, coeffAt, ones, hshift, hnone, hten, hunit, hstep, Bool.false_eq_true,
      if_false, if_true]
    omega
  intro h
  have hsign : (ctx.sub (.finite false (ones k)) (.finite false (ones (k + 1)))).isNegative =
      true := by
    simp only [sub, Decimal.neg, add, addFinite, isZero_ones, hlead, Int.lt_irrefl, if_false,
      addOrdered, orTrace_of_lead ctx hlead, Bool.not_false, hexp, hdifference]
    rw [if_neg (by decide), finish, isNegative_ofMagnitude]
    decide
  rw [h] at hsign
  cases hsign

end Context
end Reckoner
