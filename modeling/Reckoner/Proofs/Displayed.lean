import Mathlib.Data.Nat.Digits.Lemmas
import Reckoner.Decimal.Display
import Reckoner.Proofs.Numerals

/-!
# The numeral that is shown

The digits of a number read back as the number (`read_text`). A magnitude is given by the number it
stands for (`toRat_inj`), and a rounded one has no more digits than asked for
(`digitCount_round_le`). Its digits with the point at their place are a numeral of just that value
(`positional_numeral`), so reading the numeral gives the magnitude back.
-/

namespace Reckoner

/-! ## Digits of a number -/

namespace Digits

theorem pow10_pos (k : Nat) : 0 < pow10 k := Nat.pow_pos (by decide)

theorem lastOf_mod (k n : Nat) (tail : List Nat) :
    lastOf k (n % pow10 k) tail = lastOf k n tail := by
  induction k generalizing n tail with
  | zero => rfl
  | succ k ih =>
    have hlast : n % pow10 (k + 1) % 10 = n % 10 :=
      Nat.mod_mod_of_dvd n ⟨pow10 k, by rw [pow10_succ, Nat.mul_comm]⟩
    have hothers : n % pow10 (k + 1) / 10 = n / 10 % pow10 k := by
      rw [pow10_succ, Nat.mul_comm]
      exact Nat.mod_mul_right_div_self n 10 (pow10 k)
    rw [lastOf, lastOf, hlast, hothers, ih]

/-- The digits in front of the last `k`, and the last `k`. -/
theorem digits_lastOf {k n : Nat} (h : pow10 k ≤ n) (tail : List Nat) :
    (Nat.digits 10 (n / pow10 k)).reverse ++ lastOf k n tail =
      (Nat.digits 10 n).reverse ++ tail := by
  induction k generalizing n tail with
  | zero =>
    have hone : pow10 0 = 1 := rfl
    rw [hone, Nat.div_one, lastOf]
  | succ k ih =>
    have hpos := pow10_pos k
    rw [pow10_succ] at h
    have hfront : pow10 k ≤ n / 10 := by omega
    have hdigits : Nat.digits 10 n = n % 10 :: Nat.digits 10 (n / 10) :=
      Nat.digits_def' (by decide) (by omega)
    have hsplit : n / pow10 (k + 1) = n / 10 / pow10 k := by
      rw [pow10_succ, Nat.mul_comm, Nat.div_div_eq_div_mul]
    rw [lastOf, hsplit, ih hfront, hdigits, List.reverse_cons, List.append_assoc,
      List.singleton_append]

theorem ofNatAux_eq {k n : Nat} (h : n < pow10 k) (tail : List Nat) :
    ofNatAux k n tail = (Nat.digits 10 n).reverse ++ tail := by
  induction k generalizing n tail with
  | zero =>
    have hzero : n = 0 := Nat.lt_one_iff.mp h
    rw [hzero, ofNatAux, Nat.digits_zero]
    rfl
  | succ k ih =>
    rw [ofNatAux]
    by_cases hzero : n = 0
    · rw [if_pos hzero, hzero, Nat.digits_zero]
      rfl
    · have hdigits : Nat.digits 10 n = n % 10 :: Nat.digits 10 (n / 10) :=
        Nat.digits_def' (by decide) (by omega)
      rw [pow10_succ] at h
      rw [if_neg hzero, ih (by omega), hdigits, List.reverse_cons, List.append_assoc,
        List.singleton_append]

theorem prepend_eq (n : Nat) (tail : List Nat) :
    prepend n tail = (Nat.digits 10 n).reverse ++ tail := by
  fun_induction prepend n tail with
  | case1 n tail h => exact ofNatAux_eq h tail
  | case2 n tail h ih => rw [ih, lastOf_mod, digits_lastOf (Nat.not_lt.mp h)]

theorem ofNat_eq (n : Nat) : ofNat n = (Nat.digits 10 n).reverse := by
  rw [ofNat, prepend_eq, List.append_nil]

theorem lt_ten {n d : Nat} (h : d ∈ ofNat n) : d < 10 := by
  rw [ofNat_eq, List.mem_reverse] at h
  exact Nat.digits_lt_base (by decide) h

theorem isDigit_unitOf {d : Nat} (h : d < 10) : Text.isDigit (unitOf d) = true := by
  interval_cases d <;> rfl

theorem ofUnit_unitOf {d : Nat} (h : d < 10) : ofUnit (unitOf d) = d := by
  interval_cases d <;> rfl

theorem isDigit_of_mem_text {n : Nat} {u : UInt16} (h : u ∈ text n) : Text.isDigit u = true := by
  obtain ⟨d, hd, rfl⟩ := List.mem_map.mp h
  exact isDigit_unitOf (lt_ten hd)

/-- **The digits of a number read back as the number.** -/
theorem read_text (n : Nat) : read (text n) = n := by
  have hback : (text n).map ofUnit = ofNat n := by
    rw [text, List.map_map]
    exact (List.map_congr_left fun d hd => ofUnit_unitOf (lt_ten hd)).trans (List.map_id _)
  rw [read, hback, value, ofNat_eq, List.foldl_reverse]
  calc (Nat.digits 10 n).foldr (fun d n => 10 * n + d) 0
      = Nat.ofDigits 10 (Nat.digits 10 n) := by
        rw [Nat.ofDigits_eq_foldr]
        simp only [Nat.cast_id, Nat.add_comm]
    _ = n := Nat.ofDigits_digits 10 n

theorem length_text (n : Nat) : (text n).length = count n := by
  rw [text, List.length_map, ofNat_eq, List.length_reverse]
  by_cases hzero : n = 0
  · rw [hzero]
    rfl
  · rw [Nat.length_digits 10 n (by decide) hzero]
    exact (count_eq (Nat.pow_log_le_self 10 hzero) (Nat.lt_pow_succ_log_self (by decide) n)).symm

theorem read_zeros_append (k : Nat) (t : Text) : read (Text.zeros k ++ t) = read t := by
  induction k with
  | zero => rfl
  | succ k ih => exact ih

theorem read_append_zeros (t : Text) (k : Nat) : read (t ++ Text.zeros k) = read t * pow10 k := by
  induction k with
  | zero => simp [Text.zeros, pow10]
  | succ k ih =>
    have hlast : Text.zeros (k + 1) = Text.zeros k ++ [Text.unit '0'] := List.replicate_succ'
    have hread (t : Text) : read (t ++ [Text.unit '0']) = 10 * read t := by
      simp [read, value, ofUnit, Text.unit]
    rw [hlast, ← List.append_assoc, hread, ih, pow10_succ]
    ring

end Digits

/-! ## Magnitudes with few digits -/

theorem Rounding.quotient_le {rounding : Rounding} {num den k : Nat} (h : num < k * den) :
    rounding.quotient num den ≤ k := by
  have hbelow : num / den < k := Nat.div_lt_of_lt_mul (by rwa [Nat.mul_comm])
  cases rounding with
  | towardZero => exact hbelow.le
  | halfEven =>
    simp only [quotient]
    split <;> omega

namespace Magnitude

variable {a b m : Magnitude}

theorem coeff_of_toRat_eq (h : a.toRat = b.toRat) (hexp : a.exp ≤ b.exp) :
    a.coeff = b.coeff * pow10 (b.exp - a.exp).toNat := by
  have hshift : b.exp = ((b.exp - a.exp).toNat : ℤ) + a.exp := by omega
  rw [toRat, toRat, hshift, zpow10_add, ← mul_assoc, ← cast_pow10, ← Nat.cast_mul] at h
  exact_mod_cast mul_right_cancel₀ (zpow10_pos a.exp).ne' h

theorem eq_of_toRat_le (h : a.toRat = b.toRat) (hexp : a.exp ≤ b.exp) : a = b := by
  have hcoeff := coeff_of_toRat_eq h hexp
  obtain ⟨c, e, hc⟩ := a
  obtain ⟨d, f, hd⟩ := b
  simp only at hcoeff hexp
  rcases hexp.eq_or_lt with rfl | hlt
  · have hsame : c = d := by simpa [pow10] using hcoeff
    subst hsame
    rfl
  · -- A higher exponent leaves a zero at the end, which only zero itself may have.
    obtain ⟨k, hk⟩ : ∃ k, (f - e).toNat = k + 1 := ⟨(f - e).toNat - 1, by omega⟩
    rw [hk, pow10_succ, ← Nat.mul_assoc] at hcoeff
    have hzero : c = 0 ∧ e = 0 := by
      rcases hc with hmod | hzero
      · omega
      · exact hzero
    have hpos := Digits.pow10_pos k
    have hdzero : d = 0 := by
      rcases Nat.eq_zero_or_pos d with hd | hd
      · exact hd
      · have := Nat.mul_pos (Nat.mul_pos hd hpos) (by decide : 0 < 10)
        omega
    have hfzero : f = 0 := by
      rcases hd with hmod | hzero
      · omega
      · exact hzero.2
    omega

/-- A magnitude is given by the number that it stands for. -/
theorem toRat_inj (h : a.toRat = b.toRat) : a = b := by
  rcases Int.le_total a.exp b.exp with hexp | hexp
  · exact eq_of_toRat_le h hexp
  · exact (eq_of_toRat_le h.symm hexp).symm

/-- What is moved into the exponent are zeros at the end. -/
theorem stripZeros_eq (k c : Nat) (e : ℤ) :
    ∃ j : Nat, c = (stripZeros k c e).1 * pow10 j := by
  induction k generalizing c e with
  | zero => exact ⟨0, (Nat.mul_one c).symm⟩
  | succ k ih =>
    rw [stripZeros]
    by_cases h : c % 10 = 0
    · obtain ⟨j, hj⟩ := ih (c / 10) (e + 1)
      refine ⟨j + 1, ?_⟩
      rw [if_pos h, pow10_succ, ← Nat.mul_assoc, ← hj]
      omega
    · exact ⟨0, by rw [if_neg h]; exact (Nat.mul_one c).symm⟩

/-- At most a power of ten, without the zeros at its end. -/
theorem digitCount_ofScaled_le {c digits : Nat} (e : ℤ) (hdigits : 0 < digits)
    (h : c ≤ pow10 digits) : (ofScaled c e).digitCount ≤ digits := by
  apply Digits.count_le
  have hpos := Digits.pow10_pos digits
  by_cases hzero : c = 0
  · rw [ofScaled, dif_pos hzero]
    exact hpos
  obtain ⟨j, hj⟩ := stripZeros_eq c.log2 c e
  have hcanonical := (ofScaled c e).canonical
  rw [ofScaled, dif_neg hzero] at hcanonical ⊢
  simp only at hcanonical ⊢
  generalize (stripZeros c.log2 c e).1 = d at hj hcanonical ⊢
  have hmod : d % 10 ≠ 0 := by
    rcases hcanonical with hmod | hd
    · exact hmod
    · rw [hd.1, Nat.zero_mul] at hj
      exact absurd hj hzero
  cases j with
  | zero =>
    -- The power of ten itself ends in a zero.
    obtain ⟨k, rfl⟩ : ∃ k, digits = k + 1 := ⟨digits - 1, by omega⟩
    have hone : pow10 0 = 1 := rfl
    rw [hone, Nat.mul_one] at hj
    rw [pow10_succ] at h ⊢
    omega
  | succ j =>
    have htail := Digits.pow10_pos j
    rw [pow10_succ] at hj
    calc d < d * (pow10 j * 10) := lt_mul_of_one_lt_right (by omega) (by omega)
      _ = c := hj.symm
      _ ≤ pow10 digits := h

theorem digitCount_round_le (m : Magnitude) (rounding : Rounding) {digits : Nat}
    (hdigits : 0 < digits) : (m.round rounding digits).digitCount ≤ digits := by
  unfold round
  by_cases hfits : m.digitCount ≤ digits
  · rw [if_pos hfits]
    exact hfits
  · rw [if_neg hfits]
    apply digitCount_ofScaled_le _ hdigits
    apply Rounding.quotient_le
    have hsplit : m.digitCount = digits + (m.digitCount - digits) := by omega
    calc m.coeff < pow10 m.digitCount := Digits.lt_pow10_count m.coeff
      _ = pow10 (digits + (m.digitCount - digits)) := congrArg pow10 hsplit
      _ = pow10 digits * pow10 (m.digitCount - digits) := Nat.pow_add 10 _ _

end Magnitude

/-! ## Numerals -/

namespace Text

/-- Digits, or digits, a point and digits. -/
def numeral (whole fraction : Text) : Text :=
  if fraction.isEmpty then whole else whole ++ unit '.' :: fraction

structure Numeral (t whole fraction : Text) : Prop where
  text : t = numeral whole fraction
  nonempty : whole ≠ []
  whole : ∀ u ∈ whole, isDigit u = true
  fraction : ∀ u ∈ fraction, isDigit u = true

theorem isDigit_of_mem_zeros {k : Nat} {u : UInt16} (h : u ∈ zeros k) : isDigit u = true := by
  rw [List.eq_of_mem_replicate h]
  rfl

theorem numeralValue_eq (whole fraction : Text) : numeralValue whole fraction =
    (Digits.read (whole ++ fraction) : Nat) * (10 : ℚ) ^ (-(fraction.length : ℤ)) := by
  rw [Digits.read_append, mul_assoc, ← zpow10_add, add_neg_cancel, zpow_zero, mul_one]

section
variable {digits : Text} {n : Nat}

theorem positional_behind (hne : digits ≠ []) (k : Nat) :
    positional digits (-k) = numeral [unit '0'] (zeros k ++ digits) := by
  have hfraction : (zeros k ++ digits).isEmpty = false := by simp [hne]
  rw [positional, if_pos (by omega), numeral, hfraction, Int.neg_neg, Int.toNat_natCast]
  rfl

theorem positional_natCast (hn : 0 < n) : positional digits n =
    numeral (digits.take n ++ zeros (n - digits.length)) (digits.drop n) := by
  rw [positional, if_neg (by omega), Int.toNat_natCast]
  rfl

theorem positional_whole (hn : 0 < n) (h : digits.length ≤ n) :
    positional digits n = numeral (digits ++ zeros (n - digits.length)) [] := by
  rw [positional_natCast hn, List.drop_of_length_le h, List.take_of_length_le h]

theorem positional_inside (hn : 0 < n) (h : n < digits.length) :
    positional digits n = numeral (digits.take n) (digits.drop n) := by
  have hrest : n - digits.length = 0 := by omega
  rw [positional_natCast hn, hrest, zeros, List.replicate_zero, List.append_nil]

/-- **Digits with the point at some place are a numeral**, and its value is that of the digits,
moved to that place. -/
theorem positional_numeral (hdigits : ∀ u ∈ digits, isDigit u = true) (hne : digits ≠ [])
    (places : ℤ) : ∃ whole fraction, Numeral (positional digits places) whole fraction ∧
      numeralValue whole fraction =
        (Digits.read digits : Nat) * (10 : ℚ) ^ (places - digits.length) := by
  have hzeros (k : Nat) : ∀ u ∈ zeros k, isDigit u = true := fun u hu => isDigit_of_mem_zeros hu
  by_cases hplaces : places ≤ 0
  · obtain ⟨k, rfl⟩ : ∃ k : Nat, places = -k := ⟨(-places).toNat, by omega⟩
    refine ⟨[unit '0'], zeros k ++ digits,
      ⟨positional_behind hne k, List.cons_ne_nil _ _, ?_, ?_⟩, ?_⟩
    · exact List.forall_mem_singleton.mpr rfl
    · exact List.forall_mem_append.mpr ⟨hzeros k, hdigits⟩
    · have hread : Digits.read ([unit '0'] ++ (zeros k ++ digits)) = Digits.read digits :=
        Digits.read_zeros_append (k + 1) digits
      have hlength : -((zeros k ++ digits).length : ℤ) = -k - digits.length := by
        simp only [zeros, List.length_append, List.length_replicate]
        omega
      rw [numeralValue_eq, hread, hlength]
  obtain ⟨n, rfl⟩ : ∃ n : Nat, places = n := ⟨places.toNat, by omega⟩
  have hn : 0 < n := by omega
  by_cases hall : digits.length ≤ n
  · refine ⟨_, [], ⟨positional_whole hn hall, ?_, ?_, nofun⟩, ?_⟩
    · exact List.append_ne_nil_of_left_ne_nil hne _
    · exact List.forall_mem_append.mpr ⟨hdigits, hzeros _⟩
    · have hlength : (n : ℤ) - digits.length = (n - digits.length : Nat) := by omega
      rw [numeralValue_eq, List.append_nil, Digits.read_append_zeros, Nat.cast_mul, cast_pow10,
        hlength]
      simp
  · have hinside : n < digits.length := Nat.lt_of_not_le hall
    refine ⟨digits.take n, digits.drop n, ⟨positional_inside hn hinside, ?_, ?_, ?_⟩, ?_⟩
    · intro hempty
      have hlength := congrArg List.length hempty
      rw [List.length_take_of_le hinside.le] at hlength
      exact hn.ne' hlength
    · exact fun u hu => hdigits u (List.mem_of_mem_take hu)
    · exact fun u hu => hdigits u (List.mem_of_mem_drop hu)
    · have hlength : -((digits.drop n).length : ℤ) = n - digits.length := by
        rw [List.length_drop]
        omega
      rw [numeralValue_eq, List.take_append_drop, hlength]

end

/-! ## The regimes of the display -/

variable {digits : Text} {places : ℤ} {precision : Nat}

theorem display_positional (hprecision : 0 < precision) (hlength : digits.length ≤ precision)
    (hlow : -(precision : ℤ) < places) (hhigh : places ≤ precision) :
    display precision digits places = positional digits places := by
  unfold display
  by_cases hfull : places = precision
  · rw [if_pos hfull, hfull, positional_whole hprecision hlength]
    rfl
  · rw [if_neg hfull, if_pos ⟨hlow, by omega⟩]

theorem display_scientific (hprecision : 0 < precision)
    (h : places ≤ -(precision : ℤ) ∨ precision < places) :
    display precision digits places = scientific digits (ofInt (places - 1)) := by
  have hfull : ¬ places = precision := by omega
  have hinside : ¬ (-(precision : ℤ) < places ∧ places < precision) := by omega
  rw [display, if_neg hfull, if_neg hinside]

end Text

theorem Magnitude.text_ne_nil {m : Magnitude} (hzero : m.isZero = false) :
    Digits.text m.coeff ≠ [] := by
  intro hempty
  have hlength : (Digits.text m.coeff).length = m.digitCount := Digits.length_text m.coeff
  rw [hempty] at hlength
  exact (digitCount_pos hzero).ne hlength

/-- The digits of a magnitude at their places are a numeral of just that magnitude. -/
theorem Magnitude.positional_numeral {m : Magnitude} (hzero : m.isZero = false) :
    ∃ whole fraction, (Text.positional (Digits.text m.coeff) (m.lead + 1)).Numeral whole fraction ∧
      ofNumeral whole fraction 0 = m := by
  have hlength : (Digits.text m.coeff).length = m.digitCount := Digits.length_text m.coeff
  obtain ⟨whole, fraction, hnumeral, hvalue⟩ :=
    Text.positional_numeral (fun u hu => Digits.isDigit_of_mem_text hu) (text_ne_nil hzero)
      (m.lead + 1)
  refine ⟨whole, fraction, hnumeral, toRat_inj ?_⟩
  have hexp : m.lead + 1 - m.digitCount = m.exp := by
    unfold lead
    omega
  rw [toRat_ofNumeral, hvalue, Digits.read_text, hlength, hexp, toRat]

end Reckoner
