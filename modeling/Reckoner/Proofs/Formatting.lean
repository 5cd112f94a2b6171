import Mathlib.Data.Rat.Floor
import Reckoner.Proofs.ReadBack

/-!
# The digits and the exponent that are shown

A shown number is a sign or none, digits, a point with digits behind it or none, and an exponent or
none (`Text.Spelling`). Which digits these are depends on where the point falls: behind all of them,
among them, in front of them, or, outside of the places that are asked for, behind the first one
with an exponent. In each case the digits from the first nonzero one on are no more than asked for,
and the fraction has no zero at its end (`Text.concise_positional`), and in each case the text
stands for the rounded number (`Magnitude.display_spelling`). So it is read as that number, which is
shown the same way again (`shown_is_rounded`).
-/

namespace Reckoner

/-! ## Digits that count -/

theorem Digits.getLast?_text {n : Nat} (h : n % 10 ≠ 0) :
    (text n).getLast? ≠ some (Text.unit '0') := by
  have hn : n ≠ 0 := by
    rintro rfl
    exact h rfl
  have hlast : (text n).getLast? = some (unitOf (n % 10)) := by
    rw [text, List.getLast?_map, ofNat_eq, List.getLast?_reverse,
      Nat.digits_def' (by decide) (by omega)]
    rfl
  intro hzero
  have hunit : unitOf (n % 10) = Text.unit '0' := Option.some.inj (hlast.symm.trans hzero)
  have hback := ofUnit_unitOf (show n % 10 < 10 by omega)
  rw [hunit] at hback
  exact h hback.symm

namespace Text

/-- The digits from the first one on that is not a zero. -/
def significant (digits : Text) : Text := digits.dropWhile (· == unit '0')

theorem length_significant_le (digits : Text) : (significant digits).length ≤ digits.length :=
  (List.dropWhile_suffix _).length_le

theorem significant_zeros (k : Nat) (digits : Text) :
    significant (zeros k ++ digits) = significant digits := by
  induction k with
  | zero => rfl
  | succ k ih => exact ih

/-- A numeral of at most so many digits that count, without a zero at the end of its fraction. -/
structure Concise (most : Nat) (whole fraction : Text) : Prop where
  significant : (significant (whole ++ fraction)).length ≤ most
  fraction : fraction.getLast? ≠ some (unit '0')

/-- A text is a numeral in one way only. -/
theorem Numeral.unique {t whole fraction whole' fraction' : Text} (h : t.Numeral whole fraction)
    (h' : t.Numeral whole' fraction') : whole = whole' ∧ fraction = fraction' := by
  have hended : Numeral.Ended [] := nofun
  have hsplit := (h.splitNumber_eq hended).symm.trans (h'.splitNumber_eq hended)
  exact Prod.mk.inj hsplit

/-- **Wherever the point falls, the numeral is concise.** -/
theorem concise_positional {digits whole fraction : Text} {places : ℤ} {most : Nat}
    (hdigits : ∀ u ∈ digits, isDigit u = true) (hne : digits ≠ [])
    (hlast : digits.getLast? ≠ some (unit '0')) (hlength : digits.length ≤ most)
    (hplaces : places ≤ most) (h : (positional digits places).Numeral whole fraction) :
    Concise most whole fraction := by
  have hzeros (k : Nat) : ∀ u ∈ zeros k, isDigit u = true := fun u hu => isDigit_of_mem_zeros hu
  by_cases hbehind : places ≤ 0
  · obtain ⟨k, rfl⟩ : ∃ k : Nat, places = -k := ⟨(-places).toNat, by omega⟩
    have hnumeral : (positional digits (-k)).Numeral [unit '0'] (zeros k ++ digits) := by
      refine ⟨positional_behind hne k, List.cons_ne_nil _ _, ?_, ?_⟩
      · exact List.forall_mem_singleton.mpr rfl
      · exact List.forall_mem_append.mpr ⟨hzeros k, hdigits⟩
    obtain ⟨rfl, rfl⟩ := h.unique hnumeral
    constructor
    · have hfront : significant ([unit '0'] ++ (zeros k ++ digits)) = significant digits :=
        significant_zeros (k + 1) digits
      rw [hfront]
      exact (length_significant_le digits).trans hlength
    · rw [List.getLast?_append_of_ne_nil _ hne]
      exact hlast
  obtain ⟨n, rfl⟩ : ∃ n : Nat, places = n := ⟨places.toNat, by omega⟩
  have hn : 0 < n := by omega
  by_cases hall : digits.length ≤ n
  · have hnumeral : (positional digits n).Numeral (digits ++ zeros (n - digits.length)) [] := by
      refine ⟨positional_whole hn hall, List.append_ne_nil_of_left_ne_nil hne _, ?_, nofun⟩
      exact List.forall_mem_append.mpr ⟨hdigits, hzeros _⟩
    obtain ⟨rfl, rfl⟩ := h.unique hnumeral
    constructor
    · refine (length_significant_le _).trans ?_
      simp only [zeros, List.append_nil, List.length_append, List.length_replicate]
      omega
    · simp
  · have hinside : n < digits.length := Nat.lt_of_not_le hall
    have hfront : digits.take n ≠ [] := by
      intro hempty
      have hcount := congrArg List.length hempty
      rw [List.length_take_of_le hinside.le] at hcount
      exact hn.ne' hcount
    have hnumeral : (positional digits n).Numeral (digits.take n) (digits.drop n) := by
      refine ⟨positional_inside hn hinside, hfront, ?_, ?_⟩
      · exact fun u hu => hdigits u (List.mem_of_mem_take hu)
      · exact fun u hu => hdigits u (List.mem_of_mem_drop hu)
    obtain ⟨rfl, rfl⟩ := h.unique hnumeral
    constructor
    · rw [List.take_append_drop]
      exact (length_significant_le digits).trans hlength
    · rw [List.getLast?_drop, if_neg (by omega)]
      exact hlast

/-! ## Sign, point and exponent -/

/-- The exponent behind a numeral, if there is one. -/
def exponentMark : Option ℤ → Text
  | none => []
  | some exponent => unit 'e' :: ofInt exponent

/-- A sign or none, digits, a point with digits behind it or none, an exponent or none. -/
structure Spelling (t : Text) (negative : Bool) (whole fraction : Text) (exponent : Option ℤ) :
    Prop where
  text : t = (numeral whole fraction ++ exponentMark exponent).signed negative
  nonempty : whole ≠ []
  whole : ∀ u ∈ whole, isDigit u = true
  fraction : ∀ u ∈ fraction, isDigit u = true

/-- The number that is spelled, its sign apart. -/
def spelledValue (whole fraction : Text) (exponent : Option ℤ) : ℚ :=
  numeralValue whole fraction * 10 ^ exponent.getD 0

theorem Numeral.spelling {t whole fraction : Text} (h : t.Numeral whole fraction) (negative : Bool)
    (exponent : Option ℤ) :
    Spelling ((t ++ exponentMark exponent).signed negative) negative whole fraction exponent :=
  ⟨by rw [h.text], h.nonempty, h.whole, h.fraction⟩

end Text

namespace Magnitude

variable {m : Magnitude} {p : Nat}

theorem last_text (hzero : m.isZero = false) :
    (Digits.text m.coeff).getLast? ≠ some (Text.unit '0') := by
  apply Digits.getLast?_text
  rcases m.canonical with hlast | hnone
  · exact hlast
  · have hpos := coeff_pos hzero
    omega

/-- The digits of a magnitude with the point behind the first `places` of them, moved back by an
exponent, stand for the magnitude. -/
theorem numeralValue_moved {whole fraction : Text} (places : ℤ)
    (hvalue : Text.numeralValue whole fraction = (Digits.read (Digits.text m.coeff) : Nat) *
      (10 : ℚ) ^ (places - (Digits.text m.coeff).length)) :
    Text.numeralValue whole fraction * 10 ^ (m.lead + 1 - places) = m.toRat := by
  have hexp : places - m.digitCount + (m.lead + 1 - places) = m.exp := by
    unfold lead
    omega
  have hlength : (Digits.text m.coeff).length = m.digitCount := Digits.length_text m.coeff
  rw [hvalue, Digits.read_text, hlength, mul_assoc, ← zpow10_add, hexp, toRat]

/-- **What is shown of the digits of a magnitude**: a concise spelling of just that magnitude, with
an exponent if the point falls outside of the places. -/
theorem display_spelling (hzero : m.isZero = false) (hp : 0 < p) (hcount : m.digitCount ≤ p)
    (negative : Bool) : ∃ whole fraction exponent,
      ((Text.display p (Digits.text m.coeff) (m.lead + 1)).signed negative).Spelling negative whole
        fraction exponent ∧
      Text.Concise p whole fraction ∧ Text.spelledValue whole fraction exponent = m.toRat ∧
      (exponent.isSome = true ↔ (p : ℤ) < m.lead + 1 ∨ m.lead + 1 ≤ -p) := by
  have hdigits : ∀ u ∈ Digits.text m.coeff, Text.isDigit u = true :=
    fun u hu => Digits.isDigit_of_mem_text hu
  have hne := text_ne_nil hzero
  have hlast := last_text hzero
  have hlength : (Digits.text m.coeff).length ≤ p := (Digits.length_text m.coeff).trans_le hcount
  by_cases hinside : -(p : ℤ) < m.lead + 1 ∧ m.lead + 1 ≤ p
  · obtain ⟨whole, fraction, hnumeral, hvalue⟩ :=
      Text.positional_numeral hdigits hne (m.lead + 1)
    refine ⟨whole, fraction, none, ?_, ?_, ?_, ?_⟩
    · rw [Text.display_positional hp hlength hinside.1 hinside.2]
      have hspelling := hnumeral.spelling negative none
      rwa [Text.exponentMark, List.append_nil] at hspelling
    · exact Text.concise_positional hdigits hne hlast hlength hinside.2 hnumeral
    · have hmoved := numeralValue_moved (m.lead + 1) hvalue
      rwa [sub_self] at hmoved
    · simp only [Option.isSome_none, Bool.false_eq_true, false_iff]
      omega
  · obtain ⟨whole, fraction, hnumeral, hvalue⟩ := Text.positional_numeral hdigits hne 1
    refine ⟨whole, fraction, some (m.lead + 1 - 1), ?_, ?_, ?_, ?_⟩
    · rw [Text.display_scientific hp (by omega)]
      exact hnumeral.spelling negative (some (m.lead + 1 - 1))
    · exact Text.concise_positional hdigits hne hlast hlength (by omega) hnumeral
    · exact numeralValue_moved 1 hvalue
    · simp only [Option.isSome_some, true_iff]
      omega

end Magnitude

/-! ## The requested count -/

/-- The digits shown are the integral part of the count that is asked for, and at least one. -/
theorem displayPrecision_eq (digits : ℚ) :
    (displayPrecision digits : ℤ) = max 1 (if 0 ≤ digits then ⌊digits⌋ else ⌈digits⌉) := by
  have htrunc : digits.num.tdiv digits.den = if 0 ≤ digits then ⌊digits⌋ else ⌈digits⌉ := by
    split
    · rename_i hpos
      rw [Int.tdiv_eq_ediv_of_nonneg (Rat.num_nonneg.mpr hpos), Rat.floor_def']
    · rename_i hneg
      have hnum : 0 ≤ -digits.num := Int.neg_nonneg.mpr (Rat.num_nonpos.mpr (le_of_not_ge hneg))
      have hfloor : ⌊-digits⌋ = -digits.num / digits.den := by
        rw [Rat.floor_def', Rat.num_neg_eq_neg_num, Rat.den_neg_eq_den]
      have hceil : ⌊-digits⌋ = -⌈digits⌉ := Int.floor_neg
      have hdiv : digits.num.tdiv digits.den = -(-digits.num / digits.den) := by
        rw [← Int.tdiv_eq_ediv_of_nonneg hnum, Int.neg_tdiv, Int.neg_neg]
      omega
  unfold displayPrecision
  omega

/-! ## Shown and read back -/

theorem Magnitude.lead_of_bounds {m : Magnitude} (hzero : m.isZero = false) {x : ℤ}
    (hlow : (10 : ℚ) ^ (x - 1) ≤ m.toRat) (hhigh : m.toRat < 10 ^ x) : m.lead + 1 = x := by
  have hge := le_lead hlow
  have hlt := lead_lt hzero hhigh
  omega

/-- **What is shown is the rounded number.** Let `p` be the digits that are shown for a count that
can be asked for. For every finite number other than zero, if it stays in the exponent range when it
is rounded half-even to `p` significant digits, a text is shown that spells the rounded number. It
has no more than `p` digits from the first nonzero one on and no zero at the end of a fraction. With
the rounded number being `0.d₁d₂…` times ten to the `x`, there is an exponent just if `x` is above
`p` or not above `-p`. Read back, the text is the rounded number with its sign, and that number is
shown as the same text. -/
theorem shown_is_rounded (digits : ℚ) (negative : Bool) {m : Magnitude} (hzero : m.isZero = false)
    (hmost : displayPrecision digits ≤ 1000000001)
    (hlow : -Decimal.maxExponent ≤ (m.round .halfEven (displayPrecision digits)).lead)
    (hhigh : (m.round .halfEven (displayPrecision digits)).lead ≤ Decimal.maxExponent) :
    let p := displayPrecision digits
    (p : ℤ) = max 1 (if 0 ≤ digits then ⌊digits⌋ else ⌈digits⌉) ∧
    ∃ t whole fraction exponent value r, (Decimal.finite negative m).display p = .ok t ∧
      t.Spelling negative whole fraction exponent ∧
      Text.spelledValue whole fraction exponent = r ∧ Rounding.halfEven.RoundsTo p m.toRat r ∧
      (Text.significant (whole ++ fraction)).length ≤ p ∧
      fraction.getLast? ≠ some (Text.unit '0') ∧
      (∀ x : ℤ, (10 : ℚ) ^ (x - 1) ≤ r → r < 10 ^ x →
        (exponent.isSome = true ↔ (p : ℤ) < x ∨ x ≤ -p)) ∧
      Decimal.read? t = some value ∧ value.number? = some (if negative then -r else r) ∧
      value.display p = .ok t := by
  intro p
  have hcount := displayPrecision_eq digits
  have hp : 0 < p := by
    have hone : (1 : ℤ) ≤ p := hcount ▸ le_max_left _ _
    omega
  obtain ⟨hround, -, -⟩ := Magnitude.lead_round hzero .halfEven hp
  have hdigits : (m.round .halfEven p).digitCount ≤ p := m.digitCount_round_le .halfEven hp
  have hagain : (m.round .halfEven p).round .halfEven p = m.round .halfEven p := if_pos hdigits
  obtain ⟨whole, fraction, exponent, hspelling, hconcise, hvalue, hexponent⟩ :=
    Magnitude.display_spelling hround hp hdigits negative
  refine ⟨hcount, _, whole, fraction, exponent, .finite negative (m.round .halfEven p),
    (m.round .halfEven p).toRat, Decimal.display_of_range negative hmost hzero hhigh, hspelling,
    hvalue, m.round_roundsTo .halfEven p, hconcise.significant, hconcise.fraction, ?_, ?_, rfl, ?_⟩
  · intro x hxlow hxhigh
    rw [hexponent, Magnitude.lead_of_bounds hround hxlow hxhigh]
  · exact Decimal.read?_display negative hround hp ⟨hdigits, hlow, hhigh⟩
  · have hshown := Decimal.display_of_range negative hmost hround (by rwa [hagain])
    rwa [hagain] at hshown

/-- Rounding to two digits carries into a place that is just within them. A count that is not
integral is cut. -/
theorem shown_is_rounded_carry :
    (Decimal.finite true (.ofScaled 999 (-2))).display (displayPrecision (5 / 2)) = .ok "-10" ∧
    ∃ value r, Decimal.read? "-10" = some value ∧ value.number? = some (-r) ∧
      Rounding.halfEven.RoundsTo 2 (Magnitude.ofScaled 999 (-2)).toRat r ∧
      value.display 2 = .ok "-10" := by
  have hp : displayPrecision (5 / 2) = 2 := by decide +kernel
  have hshown : (Decimal.finite true (.ofScaled 999 (-2))).display (displayPrecision (5 / 2)) =
      .ok "-10" := by
    decide +kernel
  obtain ⟨-, t, whole, fraction, exponent, value, r, ht, -, -, hrounds, -, -, -, hread, hnumber,
    hback⟩ :=
    shown_is_rounded (5 / 2) true (m := .ofScaled 999 (-2)) (by decide +kernel) (by decide +kernel)
      (by decide +kernel) (by decide +kernel)
  obtain rfl : t = "-10" := Except.ok.inj (ht.symm.trans hshown)
  rw [hp] at hrounds hback
  exact ⟨hshown, value, r, hread, hnumber, hrounds, hback⟩

end Reckoner
