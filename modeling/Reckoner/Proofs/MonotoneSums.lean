import Mathlib.Algebra.BigOperators.Group.List.Basic
import Reckoner.Builtin
import Reckoner.Proofs.ExactArithmetic
import Reckoner.Proofs.Ranking
import Reckoner.Proofs.Significance

/-!
# Sums and means keep the order of their arguments

A greater number is never rounded to a smaller one, and bringing a number into the range of
exponents keeps the order as well. So a result that is rounded once grows with its number
(`Context.Rounds.atMost`). Adding and dividing pass infinities on, and so each step of a sum keeps
two accumulators in their order.
-/

namespace Reckoner

/-! ## The range keeps the order -/

namespace Decimal

/-- Where a number stands when its exponent is brought into range. -/
def clamp (q : ℚ) : WithTop (WithBot ℚ) :=
  if 10 ^ (maxExponent + 1) ≤ q then ⊤
  else if q ≤ -10 ^ (maxExponent + 1) then ⊥
  else if |q| < 10 ^ (-maxExponent) then ((0 : ℚ) : WithBot ℚ)
  else (q : WithBot ℚ)

theorem clamp_mono {p q : ℚ} (h : p ≤ q) : clamp p ≤ clamp q := by
  unfold clamp
  generalize (10 : ℚ) ^ (maxExponent + 1) = limit
  generalize (10 : ℚ) ^ (-maxExponent) = least
  have hcoe {a b : ℚ} (hab : a ≤ b) :
      ((a : WithBot ℚ) : WithTop (WithBot ℚ)) ≤ (b : WithBot ℚ) :=
    WithTop.coe_le_coe.mpr (WithBot.coe_le_coe.mpr hab)
  by_cases hq : limit ≤ q
  · rw [if_pos hq]
    exact le_top
  have hp : ¬ limit ≤ p := fun hp => hq (hp.trans h)
  rw [if_neg hq, if_neg hp]
  by_cases hp' : p ≤ -limit
  · rw [if_pos hp']
    exact bot_le
  have hq' : ¬ q ≤ -limit := fun hq => hp' (h.trans hq)
  rw [if_neg hp', if_neg hq']
  -- Both are in reach, and only the tiny ones are moved, to zero.
  by_cases hsmall : |p| < least <;> by_cases hsmall' : |q| < least <;>
    simp only [if_pos, if_neg, hsmall, hsmall', not_false_eq_true]
  · exact le_refl _
  · apply hcoe
    have := (abs_lt.mp hsmall).1
    rcases le_abs'.mp (not_lt.mp hsmall') with hneg | hpos <;> linarith [abs_nonneg p]
  · apply hcoe
    have := (abs_lt.mp hsmall').2
    rcases le_abs'.mp (not_lt.mp hsmall) with hneg | hpos <;> linarith [abs_nonneg q]
  · exact hcoe h

theorem clamp_of_large (negative : Bool) {r : ℚ} (h : 10 ^ (maxExponent + 1) ≤ r) :
    clamp (signedBy negative r) = if negative then ⊥ else ⊤ := by
  have hlimit := zpow10_pos (maxExponent + 1)
  cases negative with
  | false => exact if_pos h
  | true =>
    have hneg : ¬ 10 ^ (maxExponent + 1) ≤ -r := not_le.mpr (by linarith)
    exact (if_neg hneg).trans (if_pos (neg_le_neg h))

/-- In reach, only the tiny numbers are moved. -/
theorem clamp_of_reach {q : ℚ} (h : |q| < 10 ^ (maxExponent + 1)) :
    clamp q = ((if |q| < 10 ^ (-maxExponent) then 0 else q : ℚ) : WithBot ℚ) := by
  obtain ⟨hlow, hhigh⟩ := abs_lt.mp h
  rw [clamp, if_neg (not_le.mpr hhigh), if_neg (not_le.mpr hlow)]
  split <;> rfl

theorem level_ofMagnitude (negative : Bool) (m : Magnitude) :
    (ofMagnitude negative m).level = clamp (signedBy negative m.toRat) := by
  have hreach (h : m.toRat < 10 ^ (maxExponent + 1)) :=
    clamp_of_reach (q := signedBy negative m.toRat) (by rwa [abs_signedBy_toRat])
  rw [abs_signedBy_toRat] at hreach
  unfold ofMagnitude
  cases hzero : m.isZero with
  | true =>
    have hnone := Magnitude.toRat_of_isZero hzero
    rw [if_pos rfl, hreach (by rw [hnone]; exact zpow10_pos _), hnone,
      signedBy_zero, ite_self, level, hnone, neg_zero, ite_self]
  | false =>
    rw [if_neg Bool.false_ne_true]
    by_cases hhigh : maxExponent < m.lead
    · have hlarge : (10 : ℚ) ^ (maxExponent + 1) ≤ m.toRat :=
        (zpow_le_zpow_right₀ (by norm_num) hhigh).trans (Magnitude.zpow_lead_le hzero)
      rw [if_pos hhigh, clamp_of_large negative hlarge, level]
    · have hbelow : m.toRat < 10 ^ (maxExponent + 1) :=
        lt_of_lt_of_le m.toRat_lt_zpow_lead (zpow_le_zpow_right₀ (by norm_num) (by omega))
      rw [if_neg hhigh, hreach hbelow]
      by_cases hlow : m.lead < -maxExponent
      · have htiny : m.toRat < 10 ^ (-maxExponent) :=
          lt_of_lt_of_le m.toRat_lt_zpow_lead (zpow_le_zpow_right₀ (by norm_num) hlow)
        rw [if_pos hlow, if_pos htiny, level, Magnitude.toRat_of_isZero rfl, neg_zero, ite_self]
      · have hrange : (10 : ℚ) ^ (-maxExponent) ≤ m.toRat :=
          (zpow_le_zpow_right₀ (by norm_num) (not_lt.mp hlow)).trans (Magnitude.zpow_lead_le hzero)
        rw [if_neg hlow, if_neg (not_lt.mpr hrange), level, signedBy]

/-- Neither is NaN, and the first one does not stand above the second one. -/
structure AtMost (x y : Decimal) : Prop where
  left : x ≠ nan
  right : y ≠ nan
  level_le : x.level ≤ y.level

variable {x y : Decimal}

theorem atMost_minus (h : y ≠ nan) : (infinite true).AtMost y := by
  refine ⟨by decide, h, ?_⟩
  cases y with
  | nan => exact absurd rfl h
  | infinite b =>
    cases b with
    | false => exact level_minus_lt_plus.le
    | true => exact le_refl _
  | finite b m => exact (level_minus_lt b m).le

theorem atMost_plus (h : x ≠ nan) : x.AtMost (infinite false) := by
  refine ⟨h, by decide, ?_⟩
  cases x with
  | nan => exact absurd rfl h
  | infinite b =>
    cases b with
    | false => exact le_refl _
    | true => exact level_minus_lt_plus.le
  | finite b m => exact (level_lt_plus b m).le

/-- Decimals in their order: an infinity at its end, or two numbers. -/
theorem AtMost.cases (h : x.AtMost y) : x = infinite true ∨ y = infinite false ∨
    ∃ p q, x.number? = some p ∧ y.number? = some q ∧ p ≤ q := by
  obtain ⟨hx, hy, hle⟩ := h
  cases x with
  | nan => exact absurd rfl hx
  | infinite a =>
    cases a with
    | true => exact .inl rfl
    | false =>
      cases y with
      | nan => exact absurd rfl hy
      | infinite b =>
        cases b with
        | false => exact .inr (.inl rfl)
        | true => exact absurd hle (not_le.mpr level_minus_lt_plus)
      | finite b m => exact absurd hle (not_le.mpr (level_lt_plus b m))
  | finite a k =>
    cases y with
    | nan => exact absurd rfl hy
    | infinite b =>
      cases b with
      | false => exact .inr (.inl rfl)
      | true => exact absurd hle (not_le.mpr (level_minus_lt a k))
    | finite b m =>
      refine .inr (.inr ⟨_, _, rfl, rfl, ?_⟩)
      exact WithBot.coe_le_coe.mp (WithTop.coe_le_coe.mp (WithTop.coe_le_coe.mp hle))

theorem number_of_level {q : ℚ} (h : x.level = ((q : WithBot ℚ) : WithTop (WithBot ℚ))) :
    x.number? = some q := by
  cases x with
  | nan => exact absurd h.symm (WithTop.coe_ne_top)
  | infinite negative =>
    cases negative with
    | false => exact absurd (WithTop.coe_injective h).symm WithTop.coe_ne_top
    | true =>
      exact absurd (WithTop.coe_injective (WithTop.coe_injective h)).symm WithBot.coe_ne_bot
  | finite negative m =>
    exact congrArg some (WithBot.coe_injective (WithTop.coe_injective (WithTop.coe_injective h)))

end Decimal

/-! ## Results rounded once -/

namespace Context

variable {ctx : Context} {q q' : ℚ} {x y : Decimal}

theorem Rounds.ne_nan (h : ctx.Rounds q x) : x ≠ .nan := by
  obtain ⟨negative, m, -, -, -, rfl⟩ := h
  intro hnan
  unfold Decimal.ofMagnitude at hnan
  repeat' split at hnan
  all_goals cases hnan

/-- **A result that is rounded once grows with its number.** -/
theorem Rounds.atMost (hprecision : 0 < ctx.precision) (hx : ctx.Rounds q x) (hy : ctx.Rounds q' y)
    (hle : q ≤ q') : x.AtMost y := by
  refine ⟨hx.ne_nan, hy.ne_nan, ?_⟩
  obtain ⟨p, a, hneg, hpos, ha, rfl⟩ := hx
  obtain ⟨p', b, hneg', hpos', hb, rfl⟩ := hy
  rw [Decimal.level_ofMagnitude, Decimal.level_ofMagnitude]
  apply WithTop.coe_le_coe.mpr
  apply Decimal.clamp_mono
  rcases lt_or_ge 0 q with hq | hq
  · -- Both are positive.
    have hq' := hq.trans_le hle
    rw [abs_of_pos hq] at ha
    rw [abs_of_pos hq'] at hb
    rw [hpos hq, hpos' hq']
    exact ha.mono hprecision hb hle
  rcases lt_or_ge q' 0 with hq' | hq'
  · -- Both are negative.
    have hq := hle.trans_lt hq'
    rw [abs_of_neg hq] at ha
    rw [abs_of_neg hq'] at hb
    rw [hneg hq, hneg' hq']
    exact neg_le_neg (hb.mono hprecision ha (neg_le_neg hle))
  · have hleft : signedBy p a.toRat ≤ 0 := by
      rcases hq.eq_or_lt with rfl | hq
      · rw [abs_zero] at ha
        rw [ha.of_zero, signedBy_zero]
      · rw [hneg hq]
        exact neg_nonpos.mpr a.toRat_nonneg
    have hright : 0 ≤ signedBy p' b.toRat := by
      rcases hq'.eq_or_lt with rfl | hq'
      · rw [abs_zero] at hb
        rw [hb.of_zero, signedBy_zero]
      · rw [hpos' hq']
        exact b.toRat_nonneg
    exact hleft.trans hright

/-- The number has few enough digits and its exponent is in range. -/
def Represents (ctx : Context) (q : ℚ) : Prop :=
  ∃ x : Decimal, x.number? = some q ∧ x.Within ctx.precision

theorem rounds_self (hx : x.number? = some q) (hwithin : x.Within ctx.precision) :
    ctx.Rounds q x := by
  obtain ⟨negative, m, rfl, rfl⟩ := Decimal.exists_of_number hx
  obtain ⟨hdigits, hlow, hhigh⟩ := hwithin
  have hfinish := ctx.finish_rounds negative m
  rw [finish_of_fits negative hdigits] at hfinish
  cases hzero : m.isZero with
  | true => rwa [Decimal.ofMagnitude, if_pos hzero] at hfinish
  | false => rwa [ofMagnitude_of_range negative hzero hlow hhigh] at hfinish

/-- What can be represented is not changed by rounding it. -/
theorem Rounds.exact (hprecision : 0 < ctx.precision) (h : ctx.Rounds q x) (hq : ctx.Represents q) :
    x.number? = some q := by
  obtain ⟨y, hy, hwithin⟩ := hq
  have hself := rounds_self hy hwithin
  apply Decimal.number_of_level
  rw [← Decimal.level_of_number hy]
  exact le_antisymm (h.atMost hprecision hself (le_refl q)).level_le
    (hself.atMost hprecision h (le_refl q)).level_le

/-! ## Adding and dividing -/

/-- Functions that pass infinities on and round the values of two functions, one not above the
other, keep decimals in their order. -/
theorem atMost_map {f g : Decimal → Decimal} {F G : ℚ → ℚ} (hprecision : 0 < ctx.precision)
    (hf : ∀ negative, f (.infinite negative) = .infinite negative)
    (hg : ∀ negative, g (.infinite negative) = .infinite negative)
    (hF : ∀ {x p}, Decimal.number? x = some p → ctx.Rounds (F p) (f x))
    (hG : ∀ {x p}, Decimal.number? x = some p → ctx.Rounds (G p) (g x))
    (hle : ∀ {p q}, p ≤ q → F p ≤ G q) (h : x.AtMost y) : (f x).AtMost (g y) := by
  have hne {k : Decimal → Decimal} {K : ℚ → ℚ}
      (hk : ∀ negative, k (.infinite negative) = .infinite negative)
      (hK : ∀ {x p}, Decimal.number? x = some p → ctx.Rounds (K p) (k x)) {z : Decimal}
      (hz : z ≠ .nan) : k z ≠ .nan := by
    cases z with
    | nan => exact absurd rfl hz
    | infinite negative =>
      rw [hk]
      intro hnan
      cases hnan
    | finite negative m => exact (hK rfl).ne_nan
  rcases h.cases with rfl | rfl | ⟨p, q, hx, hy, hpq⟩
  · rw [hf]
    exact Decimal.atMost_minus (hne hg hG h.right)
  · rw [hg]
    exact Decimal.atMost_plus (hne hf hF h.left)
  · exact (hF hx).atMost hprecision (hG hy) (hle hpq)

theorem add_infinite (ctx : Context) {y : Decimal} {q : ℚ} (hy : y.number? = some q)
    (negative : Bool) : ctx.add (.infinite negative) y = .infinite negative := by
  obtain ⟨sign, m, rfl, -⟩ := Decimal.exists_of_number hy
  rfl

theorem add_atMost (hprecision : 0 < ctx.precision) {a b : Decimal} {p q : ℚ}
    (ha : a.number? = some p) (hb : b.number? = some q) (hle : p ≤ q) (h : x.AtMost y) :
    (ctx.add x a).AtMost (ctx.add y b) :=
  atMost_map (f := (ctx.add · a)) (g := (ctx.add · b)) (F := (· + p)) (G := (· + q)) hprecision
    (ctx.add_infinite ha) (ctx.add_infinite hb) (fun hx => ctx.add_rounds hx ha)
    (fun hy => ctx.add_rounds hy hb) (fun huv => add_le_add huv hle) h

theorem number_ofNat (n : Nat) : (Decimal.ofNat n).number? = some (n : ℚ) := by
  refine congrArg some ?_
  rw [if_neg Bool.false_ne_true, Magnitude.ofNat, Magnitude.toRat_ofScaled, zpow_zero, mul_one]

theorem div_atMost (hprecision : 0 < ctx.precision) {n : Nat} (hn : 0 < n) (h : x.AtMost y) :
    (ctx.div x (.ofNat n)).AtMost (ctx.div y (.ofNat n)) := by
  have hn' : (n : ℚ) ≠ 0 := by exact_mod_cast hn.ne'
  have hinfinite (negative : Bool) : ctx.div (.infinite negative) (.ofNat n) = .infinite negative :=
    congrArg Decimal.infinite (Bool.xor_false negative)
  have hrounds {z : Decimal} {p : ℚ} (hz : z.number? = some p) :
      ctx.Rounds (p / n) (ctx.div z (.ofNat n)) := ctx.div_rounds hz (number_ofNat n) hn'
  exact atMost_map (f := (ctx.div · (.ofNat n))) (g := (ctx.div · (.ofNat n))) (F := (· / n))
    (G := (· / n)) hprecision hinfinite hinfinite hrounds hrounds
    (fun huv => div_le_div_of_nonneg_right huv (Nat.cast_nonneg n)) h

/-! ## Sums -/

/-- Running through two lists of numbers, one below the other, keeps two accumulators in their
order. -/
theorem foldl_add_atMost (hprecision : 0 < ctx.precision) {ps qs : List ℚ}
    (hle : List.Forall₂ (· ≤ ·) ps qs) {xs ys : List Decimal}
    (hxs : xs.map Decimal.number? = ps.map some) (hys : ys.map Decimal.number? = qs.map some)
    (h : x.AtMost y) : (xs.foldl ctx.add x).AtMost (ys.foldl ctx.add y) := by
  induction hle generalizing xs ys x y with
  | nil =>
    rw [List.map_eq_nil_iff.mp hxs, List.map_eq_nil_iff.mp hys]
    exact h
  | cons hfirst _ ih =>
    obtain ⟨a, xs, rfl, ha, hxs⟩ := List.map_eq_cons_iff.mp hxs
    obtain ⟨b, ys, rfl, hb, hys⟩ := List.map_eq_cons_iff.mp hys
    rw [List.foldl_cons, List.foldl_cons]
    exact ih hxs hys (add_atMost hprecision ha hb hfirst h)

/-- A sum is exact as long as every partial sum can be represented. -/
theorem foldl_add_exact (hprecision : 0 < ctx.precision) {ps : List ℚ} {xs : List Decimal} {u : ℚ}
    (hxs : xs.map Decimal.number? = ps.map some) (hx : x.number? = some u)
    (hpartial : ∀ k, ctx.Represents (u + (ps.take k).sum)) :
    (xs.foldl ctx.add x).number? = some (u + ps.sum) := by
  induction ps generalizing xs x u with
  | nil =>
    rw [List.map_eq_nil_iff.mp hxs, List.sum_nil, add_zero]
    exact hx
  | cons p ps ih =>
    obtain ⟨a, xs, rfl, ha, hxs⟩ := List.map_eq_cons_iff.mp hxs
    have hnext : ctx.Represents (u + p) := by simpa using hpartial 1
    rw [List.foldl_cons, List.sum_cons, ← add_assoc]
    refine ih hxs ((ctx.add_rounds hx ha).exact hprecision hnext) ?_
    intro k
    have hmore := hpartial (k + 1)
    rwa [List.take_succ_cons, List.sum_cons, ← add_assoc] at hmore

end Context

/-- **Sums and means grow with their arguments, in spite of rounding.** None of them is NaN. Where
every partial sum can be represented, the sum is exact and the mean is rounded once. -/
theorem sums_monotone (ctx : Context) (hprecision : 0 < ctx.precision) (pos : Int)
    {xs ys : List Decimal} {ps qs : List ℚ} (hsome : xs ≠ [])
    (hxs : xs.map Decimal.number? = ps.map some) (hys : ys.map Decimal.number? = qs.map some)
    (hle : List.Forall₂ (· ≤ ·) ps qs) :
    ∃ s t a b : Decimal,
      Builtin.sum.apply xs pos ctx = (.ok s, ctx) ∧ Builtin.sum.apply ys pos ctx = (.ok t, ctx) ∧
      Builtin.avg.apply xs pos ctx = (.ok a, ctx) ∧ Builtin.avg.apply ys pos ctx = (.ok b, ctx) ∧
      s.AtMost t ∧ a.AtMost b ∧
      ((∀ k, ctx.Represents (ps.take k).sum) →
        s.number? = some ps.sum ∧ ctx.Rounds (ps.sum / ps.length) a) := by
  have hlength : ps.length = xs.length := by simpa using (congrArg List.length hxs).symm
  have hlength' : ys.length = xs.length := by
    have hsame : ys.length = qs.length := by simpa using congrArg List.length hys
    rw [hsame, ← hle.length_eq, hlength]
  have hpos : 0 < xs.length := List.length_pos_iff.mpr hsome
  have hsum : (Builtin.total ctx xs).AtMost (Builtin.total ctx ys) :=
    Context.foldl_add_atMost hprecision hle hxs hys ⟨by decide, by decide, le_refl _⟩
  have havg {zs : List Decimal} (h : zs.length = xs.length) :
      Builtin.avg.apply zs pos ctx = (.ok (Builtin.average ctx zs), ctx) := by
    cases zs with
    | nil => exact absurd h hpos.ne
    | cons z zs => rfl
  refine ⟨_, _, _, _, rfl, rfl, havg rfl, havg hlength', hsum, ?_, ?_⟩
  · rw [Builtin.average, Builtin.average, hlength']
    exact Context.div_atMost hprecision hpos hsum
  · intro hpartial
    have hzero : Decimal.zero.number? = some 0 := Context.number_ofNat 0
    have hexact : (Builtin.total ctx xs).number? = some ps.sum := by
      rw [← zero_add ps.sum]
      refine Context.foldl_add_exact hprecision hxs hzero ?_
      intro k
      rw [zero_add]
      exact hpartial k
    refine ⟨hexact, ?_⟩
    rw [hlength]
    exact ctx.div_rounds hexact (Context.number_ofNat _) (by exact_mod_cast hpos.ne')

/-- With two digits, `90 + 9` is exact, and `95 + 10` is a tie behind a carry. Both means
are `50`. -/
theorem sums_monotone_tie :
    let ctx : Context := ⟨2, .halfEven⟩
    ∃ s t a b : Decimal,
      Builtin.sum.apply [.ofNat 90, .ofNat 9] 0 ctx = (.ok s, ctx) ∧
      Builtin.sum.apply [.ofNat 95, .ofNat 10] 0 ctx = (.ok t, ctx) ∧
      Builtin.avg.apply [.ofNat 90, .ofNat 9] 0 ctx = (.ok a, ctx) ∧
      Builtin.avg.apply [.ofNat 95, .ofNat 10] 0 ctx = (.ok b, ctx) ∧
      s.AtMost t ∧ a.AtMost b ∧ s.number? = some (99 : ℚ) ∧
      ctx.Rounds (99 / 2) a ∧ t = .ofNat 100 := by
  intro ctx
  have hnumbers (m n : Nat) : [Decimal.ofNat m, .ofNat n].map Decimal.number? =
      [(m : ℚ), (n : ℚ)].map some := by
    simp only [List.map_cons, List.map_nil, Context.number_ofNat]
  obtain ⟨s, t, a, b, hs, ht, ha, hb, hst, hab, hexact⟩ := sums_monotone ctx (by decide) 0
    (List.cons_ne_nil _ _) (hnumbers 90 9) (hnumbers 95 10) (by norm_num)
  have hnat (n : Nat) (h : (Decimal.ofNat n).Within 2) : ctx.Represents n :=
    ⟨.ofNat n, Context.number_ofNat n, h⟩
  have hpartial (k : Nat) : ctx.Represents (([((90 : Nat) : ℚ), ((9 : Nat) : ℚ)].take k).sum) := by
    rcases k with _ | _ | k
    · simpa using hnat 0 (by decide)
    · simpa using hnat 90 (by decide +kernel)
    · have hsum := hnat 99 (by decide +kernel)
      norm_num at hsum ⊢
      exact hsum
  obtain ⟨hsum, hmean⟩ := hexact hpartial
  have htotal : Builtin.total ctx [.ofNat 95, .ofNat 10] = .ofNat 100 := by decide +kernel
  norm_num at hsum hmean
  exact ⟨s, t, a, b, hs, ht, ha, hb, hst, hab, hsum, hmean,
    (Except.ok.inj (congrArg Prod.fst ht)).symm.trans htotal⟩

end Reckoner
