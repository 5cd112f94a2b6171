import Mathlib.Order.Bounds.Basic
import Mathlib.Order.WithBot
import Reckoner.Builtin
import Reckoner.Proofs.Rounding

/-!
# The order of decimals, and its first extreme

Comparing two magnitudes digit by digit compares the numbers they stand for
(`Magnitude.compare_eq`). So decimals rank as their levels do: the numbers in their order between
the two infinities, and NaN above all (`Decimal.rank_eq_compare`). Levels are totally ordered, and
the two zeros share one.

The loop over the arguments of the built-in extremes keeps what it has unless the next argument
beats it. What it has is then the first argument that none of those seen beats, which holds of two
runs one behind the other just as well as of one more argument (`FirstExtreme.append`).
-/

namespace Reckoner

/-! ## Levels -/

namespace Magnitude

theorem compare_scaled (c d : Nat) (e : ℤ) :
    Ord.compare c d = Ord.compare ((c : ℚ) * 10 ^ e) (d * 10 ^ e) := by
  rw [← cmp_eq_compare, ← cmp_eq_compare, cmp_mul_pos_right (zpow10_pos e),
    Nat.strictMono_cast.cmp_map_eq]

theorem toRat_lt_of_lead {a b : Magnitude} (hzero : b.isZero = false) (h : a.lead < b.lead) :
    a.toRat < b.toRat :=
  calc a.toRat < 10 ^ (a.lead + 1) := a.toRat_lt_zpow_lead
    _ ≤ 10 ^ b.lead := zpow_le_zpow_right₀ (by norm_num) h
    _ ≤ b.toRat := zpow_lead_le hzero

/-- Comparing digits compares numbers. -/
theorem compare_eq (a b : Magnitude) : a.compare b = Ord.compare a.toRat b.toRat := by
  have hcoeff {m : Magnitude} (h : m.isZero = true) (e : ℤ) : m.toRat = (m.coeff : ℚ) * 10 ^ e := by
    have hnone : m.coeff = 0 := by simpa [isZero] using h
    rw [toRat, hnone, Nat.cast_zero, zero_mul, zero_mul]
  unfold compare
  cases ha : a.isZero with
  | true =>
    rw [Bool.true_or, if_pos rfl, compare_scaled _ _ b.exp, hcoeff ha b.exp, toRat]
  | false =>
    cases hb : b.isZero with
    | true =>
      rw [Bool.or_true, if_pos rfl, compare_scaled _ _ a.exp, hcoeff hb a.exp, toRat]
    | false =>
      rw [Bool.or_false, if_neg Bool.false_ne_true]
      rcases lt_trichotomy a.lead b.lead with hlead | hlead | hlead
      · rw [compare_lt_iff_lt.mpr hlead, compare_lt_iff_lt.mpr (toRat_lt_of_lead hb hlead)]
        rfl
      · rw [compare_eq_iff_eq.mpr hlead, compare_scaled _ _ (min a.exp b.exp),
          a.toRat_coeffAt (min_le_left _ _), b.toRat_coeffAt (min_le_right _ _)]
        rfl
      · rw [compare_gt_iff_gt.mpr hlead, compare_gt_iff_gt.mpr (toRat_lt_of_lead ha hlead)]
        rfl

end Magnitude

namespace Decimal

/-- Where a decimal stands: a number between the infinities, and NaN above all of them. -/
def level : Decimal → WithTop (WithTop (WithBot ℚ))
  | nan => ⊤
  | infinite negative => ((if negative then ⊥ else ⊤ : WithTop (WithBot ℚ)) : WithTop _)
  | finite negative m => (((if negative then -m.toRat else m.toRat : ℚ) : WithBot ℚ) :
      WithTop (WithBot ℚ))

theorem level_of_number {x : Decimal} {q : ℚ} (h : x.number? = some q) :
    x.level = ((q : WithBot ℚ) : WithTop (WithBot ℚ)) := by
  cases x with
  | finite negative m =>
    cases h
    rfl
  | nan => cases h
  | infinite negative => cases h

theorem compare_numbers (p q : ℚ) :
    Ord.compare (((p : WithBot ℚ) : WithTop (WithBot ℚ)) : WithTop (WithTop (WithBot ℚ)))
      ((q : WithBot ℚ) : WithTop (WithBot ℚ)) = Ord.compare p q := by
  rw [← cmp_eq_compare, ← cmp_eq_compare, WithTop.coe_strictMono.cmp_map_eq,
    WithTop.coe_strictMono.cmp_map_eq, WithBot.coe_strictMono.cmp_map_eq]

/-- The rank of two finite decimals is that of their numbers. -/
theorem rank_finite (a b : Bool) (x y : Magnitude) :
    (finite a x).rank (finite b y) = Ord.compare (if a then -x.toRat else x.toRat)
      (if b then -y.toRat else y.toRat) := by
  by_cases hzero : (x.isZero && y.isZero) = true
  · obtain ⟨hx, hy⟩ := Bool.and_eq_true_iff.mp hzero
    simp only [rank, if_pos hzero, Magnitude.toRat_of_isZero hx, Magnitude.toRat_of_isZero hy,
      neg_zero, ite_self]
    exact (compare_eq_iff_eq.mpr rfl).symm
  · -- One of the two is not zero, so a negative one is below a positive one.
    have hpos : 0 < x.toRat + y.toRat := by
      rw [Bool.and_eq_true_iff, not_and_or, Bool.not_eq_true, Bool.not_eq_true] at hzero
      rcases hzero with hx | hy
      · exact add_pos_of_pos_of_nonneg (Magnitude.toRat_pos hx) y.toRat_nonneg
      · exact add_pos_of_nonneg_of_pos x.toRat_nonneg (Magnitude.toRat_pos hy)
    simp only [rank, if_neg hzero]
    cases a with
    | false =>
      cases b with
      | false => exact x.compare_eq y
      | true =>
        symm
        apply compare_gt_iff_gt.mpr
        simp only [if_true, Bool.false_eq_true, if_false]
        linarith
    | true =>
      cases b with
      | false =>
        symm
        apply compare_lt_iff_lt.mpr
        simp only [if_true, Bool.false_eq_true, if_false]
        linarith
      | true =>
        simp only [if_true]
        have hanti : StrictAnti fun q : ℚ => -q := fun p q h => neg_lt_neg h
        rw [y.compare_eq x, ← cmp_eq_compare, ← cmp_eq_compare]
        exact (hanti.cmp_map_eq x.toRat y.toRat).symm

theorem level_minus_lt (b : Bool) (m : Magnitude) : (infinite true).level < (finite b m).level :=
  WithTop.coe_lt_coe.mpr (WithTop.coe_lt_coe.mpr (WithBot.bot_lt_coe _))

theorem level_lt_plus (b : Bool) (m : Magnitude) : (finite b m).level < (infinite false).level :=
  WithTop.coe_lt_coe.mpr (WithTop.coe_lt_top _)

theorem level_minus_lt_plus : (infinite true).level < (infinite false).level :=
  WithTop.coe_lt_coe.mpr bot_lt_top

/-- **Decimals rank as their levels do.** -/
theorem rank_eq_compare (x y : Decimal) : x.rank y = Ord.compare x.level y.level := by
  cases x with
  | nan =>
    cases y with
    | nan => exact (compare_eq_iff_eq.mpr rfl).symm
    | infinite b => exact (compare_gt_iff_gt.mpr (WithTop.coe_lt_top _)).symm
    | finite b y => exact (compare_gt_iff_gt.mpr (WithTop.coe_lt_top _)).symm
  | infinite a =>
    cases y with
    | nan => exact (compare_lt_iff_lt.mpr (WithTop.coe_lt_top _)).symm
    | infinite b =>
      cases a with
      | false =>
        cases b with
        | false => exact (compare_eq_iff_eq.mpr rfl).symm
        | true => exact (compare_gt_iff_gt.mpr level_minus_lt_plus).symm
      | true =>
        cases b with
        | false => exact (compare_lt_iff_lt.mpr level_minus_lt_plus).symm
        | true => exact (compare_eq_iff_eq.mpr rfl).symm
    | finite b y =>
      cases a with
      | false => exact (compare_gt_iff_gt.mpr (level_lt_plus b y)).symm
      | true => exact (compare_lt_iff_lt.mpr (level_minus_lt b y)).symm
  | finite a x =>
    cases y with
    | nan => exact (compare_lt_iff_lt.mpr (WithTop.coe_lt_top _)).symm
    | infinite b =>
      cases b with
      | false => exact (compare_lt_iff_lt.mpr (level_lt_plus a x)).symm
      | true => exact (compare_gt_iff_gt.mpr (level_minus_lt a x)).symm
    | finite b y => exact (rank_finite a b x y).trans (compare_numbers _ _).symm

theorem rank_swap (x y : Decimal) : y.rank x = (x.rank y).swap := by
  rw [rank_eq_compare, rank_eq_compare, ← cmp_eq_compare, ← cmp_eq_compare, cmp_swap]

theorem isLE_rank_iff {x y : Decimal} : (x.rank y).isLE = true ↔ x.level ≤ y.level := by
  rw [rank_eq_compare, ← Ordering.ne_gt_iff_isLE]
  exact compare_le_iff_le

end Decimal

/-! ## The first extreme -/

namespace Builtin

/-- The places of the arguments that no argument beats. -/
def unbeaten (order : Ordering) (args : List Decimal) : Set Nat :=
  {i | ∃ x, args[i]? = some x ∧ ∀ y ∈ args, y.rank x ≠ order}

/-- The argument at the first place where it is not beaten, by which is meant that another one ranks
`order` against it. -/
structure FirstExtreme (order : Ordering) (args : List Decimal) (i : Nat) (x : Decimal) : Prop where
  value : args[i]? = some x
  least : IsLeast (unbeaten order args) i

theorem FirstExtreme.not_beaten {order : Ordering} {args : List Decimal} {i : Nat} {x : Decimal}
    (h : FirstExtreme order args i x) : ∀ y ∈ args, y.rank x ≠ order := by
  obtain ⟨hvalue, ⟨x', hx', hbest⟩, -⟩ := h
  cases hvalue.symm.trans hx'
  exact hbest

theorem FirstExtreme.unique {order : Ordering} {args : List Decimal} {i j : Nat} {x y : Decimal}
    (h : FirstExtreme order args i x) (h' : FirstExtreme order args j y) : i = j ∧ x = y := by
  obtain rfl : i = j := h.least.unique h'.least
  exact ⟨rfl, Option.some.inj (h.value.symm.trans h'.value)⟩

section
variable {order : Ordering} (hne : order ≠ .eq)
include hne

/-- What is between two of which one beats the other is beaten by the one or beats the other. -/
theorem beats_or_beats {x y : Decimal} (h : y.rank x = order) (z : Decimal) :
    y.rank z = order ∨ z.rank x = order := by
  simp only [Decimal.rank_eq_compare] at h ⊢
  cases order with
  | eq => exact absurd rfl hne
  | lt =>
    simp only [compare_lt_iff_lt] at h ⊢
    exact (lt_or_ge y.level z.level).imp_right fun hle => lt_of_le_of_lt hle h
  | gt =>
    simp only [compare_gt_iff_gt] at h ⊢
    exact (lt_or_ge z.level y.level).imp_right fun hle => lt_of_lt_of_le h hle

theorem not_beats_back {x y : Decimal} (h : y.rank x = order) : x.rank y ≠ order := by
  rw [Decimal.rank_swap, h]
  cases order with
  | eq => exact absurd rfl hne
  | lt => decide
  | gt => decide

theorem rank_eq_of_not_beats {x y : Decimal} (h : y.rank x ≠ order) (h' : x.rank y ≠ order) :
    x.rank y = .eq := by
  rw [Decimal.rank_swap] at h
  generalize x.rank y = found at h h' ⊢
  revert hne h h'
  cases order <;> cases found <;> decide

theorem FirstExtreme.singleton (x : Decimal) : FirstExtreme order [x] 0 x := by
  refine ⟨rfl, ⟨x, rfl, ?_⟩, fun k _ => Nat.zero_le k⟩
  intro y hy hbeats
  cases List.mem_singleton.mp hy
  exact not_beats_back hne hbeats hbeats

variable {xs ys : List Decimal} {i j : Nat} {x y : Decimal}

/-- If the extreme of the second arguments beats that of the first, it is the extreme of all. -/
theorem FirstExtreme.append_of_beats (hx : FirstExtreme order xs i x)
    (hy : FirstExtreme order ys j y) (h : y.rank x = order) :
    FirstExtreme order (xs ++ ys) (xs.length + j) y := by
  have hmem : y ∈ xs ++ ys := List.mem_append_right xs (List.mem_of_getElem? hy.value)
  have hplace : (xs ++ ys)[xs.length + j]? = some y := by
    rw [List.getElem?_append_right (Nat.le_add_right _ _), Nat.add_sub_cancel_left]
    exact hy.value
  refine ⟨hplace, ⟨y, hplace, ?_⟩, ?_⟩
  · intro z hz hbeats
    rcases List.mem_append.mp hz with hz | hz
    · -- What beats `y` would beat `x` as well.
      rcases beats_or_beats hne hbeats x with hzx | hxy
      · exact hx.not_beaten z hz hzx
      · exact not_beats_back hne h hxy
    · exact hy.not_beaten z hz hbeats
  · rintro k ⟨z, hz, hnone⟩
    by_cases hk : k < xs.length
    · rw [List.getElem?_append_left hk] at hz
      rcases beats_or_beats hne h z with hyz | hzx
      · exact absurd hyz (hnone y hmem)
      · exact absurd hzx (hx.not_beaten z (List.mem_of_getElem? hz))
    · rw [List.getElem?_append_right (Nat.not_lt.mp hk)] at hz
      have hlater : k - xs.length ∈ unbeaten order ys :=
        ⟨z, hz, fun w hw => hnone w (List.mem_append_right xs hw)⟩
      have hj := hy.least.2 hlater
      omega

/-- If it does not, the extreme of the first arguments is the extreme of all. -/
theorem FirstExtreme.append_of_not_beats (hx : FirstExtreme order xs i x)
    (hy : FirstExtreme order ys j y) (h : y.rank x ≠ order) :
    FirstExtreme order (xs ++ ys) i x := by
  have hi : i < xs.length := (List.getElem?_eq_some_iff.mp hx.value).1
  have hplace : (xs ++ ys)[i]? = some x := by
    rw [List.getElem?_append_left hi]
    exact hx.value
  refine ⟨hplace, ⟨x, hplace, ?_⟩, ?_⟩
  · intro z hz hbeats
    rcases List.mem_append.mp hz with hz | hz
    · exact hx.not_beaten z hz hbeats
    · rcases beats_or_beats hne hbeats y with hzy | hyx
      · exact hy.not_beaten z hz hzy
      · exact h hyx
  · rintro k ⟨z, hz, hnone⟩
    by_cases hk : k < xs.length
    · rw [List.getElem?_append_left hk] at hz
      exact hx.least.2 ⟨z, hz, fun w hw => hnone w (List.mem_append_left ys hw)⟩
    · omega

/-- **The extreme of two runs of arguments is that of their extremes**, and stands where that one
stood. -/
theorem FirstExtreme.append (hx : FirstExtreme order xs i x) (hy : FirstExtreme order ys j y) :
    ∃ k z, FirstExtreme order [x, y] k z ∧
      FirstExtreme order (xs ++ ys) (if k = 0 then i else xs.length + j) z := by
  have hfirst : FirstExtreme order [x] 0 x := .singleton hne x
  have hsecond : FirstExtreme order [y] 0 y := .singleton hne y
  by_cases h : y.rank x = order
  · exact ⟨1, y, hfirst.append_of_beats hne hsecond h, hx.append_of_beats hne hy h⟩
  · exact ⟨0, x, hfirst.append_of_not_beats hne hsecond h, hx.append_of_not_beats hne hy h⟩

/-- **The loop ends with the first extreme**, since it ends so behind every argument. -/
theorem extreme_firstExtreme (first : Decimal) (rest : List Decimal) :
    ∃ i, FirstExtreme order (first :: rest) i (extreme order first rest) := by
  induction rest using List.reverseRecOn with
  | nil => exact ⟨0, .singleton hne first⟩
  | append_singleton rest next ih =>
    obtain ⟨i, hbest⟩ := ih
    have hnext : FirstExtreme order [next] 0 next := .singleton hne next
    have hstep : extreme order first (rest ++ [next]) =
        if next.rank (extreme order first rest) = order then next else extreme order first rest :=
      List.foldl_concat ..
    rw [hstep]
    by_cases h : next.rank (extreme order first rest) = order
    · rw [if_pos h]
      exact ⟨_, hbest.append_of_beats hne hnext h⟩
    · rw [if_neg h]
      exact ⟨_, hbest.append_of_not_beats hne hnext h⟩

theorem FirstExtreme.rank_perm (hx : FirstExtreme order xs i x) (hy : FirstExtreme order ys j y)
    (h : xs.Perm ys) : x.rank y = .eq := by
  apply rank_eq_of_not_beats hne
  · exact hx.not_beaten y (h.mem_iff.mpr (List.mem_of_getElem? hy.value))
  · exact hy.not_beaten x (h.mem_iff.mp (List.mem_of_getElem? hx.value))

end

/-- The built-in function takes the extreme that this order is for. -/
def TakesExtreme (b : Builtin) (order : Ordering) : Prop :=
  b = .max ∧ order = .gt ∨ b = .min ∧ order = .lt

variable {b : Builtin} {order : Ordering}

theorem TakesExtreme.ne_eq (h : b.TakesExtreme order) : order ≠ .eq := by
  rcases h with ⟨-, rfl⟩ | ⟨-, rfl⟩ <;> decide

theorem TakesExtreme.apply_nil (h : b.TakesExtreme order) (pos : Int) (ctx : Context) :
    b.apply [] pos ctx = (.error (.fault (.emptyArguments b.name) pos), ctx) := by
  rcases h with ⟨rfl, -⟩ | ⟨rfl, -⟩ <;> rfl

theorem TakesExtreme.apply_cons (h : b.TakesExtreme order) (first : Decimal) (rest : List Decimal)
    (pos : Int) (ctx : Context) :
    b.apply (first :: rest) pos ctx = (.ok (extreme order first rest), ctx) := by
  rcases h with ⟨rfl, rfl⟩ | ⟨rfl, rfl⟩ <;> rfl

theorem TakesExtreme.exists_firstExtreme (h : b.TakesExtreme order) {args : List Decimal}
    (hargs : args ≠ []) (pos : Int) (ctx : Context) :
    ∃ i x, FirstExtreme order args i x ∧ b.apply args pos ctx = (.ok x, ctx) := by
  cases args with
  | nil => exact absurd rfl hargs
  | cons first rest =>
    obtain ⟨i, hfirst⟩ := extreme_firstExtreme h.ne_eq first rest
    exact ⟨i, _, hfirst, h.apply_cons first rest pos ctx⟩

theorem TakesExtreme.apply_eq (h : b.TakesExtreme order) {args : List Decimal} {i : Nat}
    {x : Decimal} (hx : FirstExtreme order args i x) (pos : Int) (ctx : Context) :
    b.apply args pos ctx = (.ok x, ctx) := by
  have hargs : args ≠ [] := by
    rintro rfl
    cases hx.value
  obtain ⟨j, y, hy, hvalue⟩ := h.exists_firstExtreme hargs pos ctx
  rw [(hx.unique hy).2]
  exact hvalue

end Builtin

/-- **The extremes are the first ones of a total preorder.** Decimals rank by their levels: ranking
is total and transitive, NaN is above everything, and the two zeros are alike. Of any arguments the
greatest and the least one are found as the argument itself, at the first place where no argument
ranks above it, or below it. So the arguments in another order have an extreme of equal rank, and
the extreme of two runs of arguments is the extreme of their two extremes, at the place where that
one stood. Without arguments there is a fault at the position of the call. -/
theorem extremes_are_first :
    ((∀ x y : Decimal, x.rank y = compare x.level y.level ∧ y.rank x = (x.rank y).swap) ∧
      (∀ x y z : Decimal, (x.rank y).isLE = true → (y.rank z).isLE = true →
        (x.rank z).isLE = true) ∧
      (∀ x : Decimal, x ≠ .nan → Decimal.nan.rank x = .gt) ∧
      ∀ a b : Bool, (Decimal.finite a .zero).rank (.finite b .zero) = .eq) ∧
    ∀ (b : Builtin) (order : Ordering), b = .max ∧ order = .gt ∨ b = .min ∧ order = .lt →
    ∀ (pos : Int) (ctx : Context),
      (b.apply [] pos ctx = (.error (.fault (.emptyArguments b.name) pos), ctx) ∧
        (Fault.emptyArguments b.name).code = ("EMPTY_ARGUMENTS" : Text)) ∧
      (∀ args : List Decimal, args ≠ [] →
        ∃ i x, Builtin.FirstExtreme order args i x ∧ b.apply args pos ctx = (.ok x, ctx)) ∧
      (∀ xs ys : List Decimal, xs ≠ [] → xs.Perm ys →
        ∃ x y, b.apply xs pos ctx = (.ok x, ctx) ∧ b.apply ys pos ctx = (.ok y, ctx) ∧
          x.rank y = .eq) ∧
      ∀ xs ys : List Decimal, xs ≠ [] → ys ≠ [] → ∃ i x j y k z,
        Builtin.FirstExtreme order xs i x ∧ b.apply xs pos ctx = (.ok x, ctx) ∧
        Builtin.FirstExtreme order ys j y ∧ b.apply ys pos ctx = (.ok y, ctx) ∧
        Builtin.FirstExtreme order [x, y] k z ∧ b.apply [x, y] pos ctx = (.ok z, ctx) ∧
        Builtin.FirstExtreme order (xs ++ ys) (if k = 0 then i else xs.length + j) z ∧
        b.apply (xs ++ ys) pos ctx = (.ok z, ctx) := by
  refine ⟨⟨?_, ?_, ?_, ?_⟩, ?_⟩
  · exact fun x y => ⟨x.rank_eq_compare y, x.rank_swap y⟩
  · intro x y z hxy hyz
    rw [Decimal.isLE_rank_iff] at hxy hyz ⊢
    exact hxy.trans hyz
  · intro x hx
    cases x with
    | nan => exact absurd rfl hx
    | infinite negative => rfl
    | finite negative m => rfl
  · exact fun a b => rfl
  intro b order htakes pos ctx
  have htakes : b.TakesExtreme order := htakes
  refine ⟨⟨htakes.apply_nil pos ctx, rfl⟩, ?_, ?_, ?_⟩
  · intro args hargs
    exact htakes.exists_firstExtreme hargs pos ctx
  · intro xs ys hxs hperm
    have hys : ys ≠ [] := fun hempty => hxs (List.perm_nil.mp (hempty ▸ hperm))
    obtain ⟨i, x, hx, hvalue⟩ := htakes.exists_firstExtreme hxs pos ctx
    obtain ⟨j, y, hy, hvalue'⟩ := htakes.exists_firstExtreme hys pos ctx
    exact ⟨x, y, hvalue, hvalue', hx.rank_perm htakes.ne_eq hy hperm⟩
  · intro xs ys hxs hys
    obtain ⟨i, x, hx, hvalue⟩ := htakes.exists_firstExtreme hxs pos ctx
    obtain ⟨j, y, hy, hvalue'⟩ := htakes.exists_firstExtreme hys pos ctx
    obtain ⟨k, z, hpair, hall⟩ := hx.append htakes.ne_eq hy
    exact ⟨i, x, j, y, k, z, hx, hvalue, hy, hvalue', hpair, htakes.apply_eq hpair pos ctx, hall,
      htakes.apply_eq hall pos ctx⟩

/-- The first of two zeros is the least, whichever its sign, and NaN is the greatest. -/
theorem extremes_are_first_zeros :
    let zeros : List Decimal := [.one, .finite true .zero, .nan, .zero]
    (∃ i, Builtin.FirstExtreme .lt zeros i (.finite true .zero)) ∧
    (∃ i, Builtin.FirstExtreme .gt zeros i .nan) ∧
    ∃ x y, Builtin.min.apply zeros 3 .standard = (.ok x, .standard) ∧
      Builtin.min.apply zeros.reverse 3 .standard = (.ok y, .standard) ∧
      x ≠ y ∧ x.rank y = .eq := by
  intro zeros
  obtain ⟨-, hextremes⟩ := extremes_are_first
  obtain ⟨-, hleast, hperm, -⟩ := hextremes .min .lt (.inr ⟨rfl, rfl⟩) 3 .standard
  obtain ⟨-, hgreatest, -⟩ := hextremes .max .gt (.inl ⟨rfl, rfl⟩) 3 .standard
  obtain ⟨i, x, hx, hmin⟩ := hleast zeros (List.cons_ne_nil _ _)
  obtain ⟨j, y, hy, hmax⟩ := hgreatest zeros (List.cons_ne_nil _ _)
  obtain ⟨u, v, hu, hv, hrank⟩ :=
    hperm zeros zeros.reverse (List.cons_ne_nil _ _) (List.reverse_perm zeros).symm
  cases hmin
  cases hmax
  cases hu
  cases hv
  exact ⟨⟨i, hx⟩, ⟨j, hy⟩, _, _, rfl, rfl, by decide, hrank⟩

end Reckoner
