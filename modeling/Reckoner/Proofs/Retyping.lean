import Reckoner.Proofs.Boundaries
import Reckoner.Proofs.Displayed
import Reckoner.Proofs.Sessions.Atomicity

/-!
# Typing back what is shown

What is shown of a finite number is a numeral, maybe with a minus sign in front, maybe with an
exponent behind. A numeral is scanned as one number, of its value (`Text.Numeral.scanFrom_eq`). So
without an exponent the shown text means the number as it was rounded, and with one it is refused,
since the exponent begins with a letter (`shown_means_rounded`).
-/

namespace Reckoner

/-! ## Scanning a numeral -/

namespace Text.Numeral

variable {t whole fraction rest : Text}

/-- A number in front of the text does not go on in it. -/
def Ended (rest : Text) : Prop := ∀ u ∈ rest.head?, isDigit u = false ∧ u ≠ unit '.'

theorem splitNumber_eq (h : t.Numeral whole fraction) (hrest : Ended rest) :
    Token.splitNumber (t ++ rest) = (whole, fraction) := by
  rw [h.text, numeral]
  by_cases hempty : fraction.isEmpty = true
  · rw [if_pos hempty, Token.splitNumber_digits h.whole, Token.splitNumber_of_head hrest,
      List.append_nil, List.isEmpty_iff.mp hempty]
  · have hpoint : isDigit (unit '.') = false := rfl
    rw [if_neg hempty, List.append_assoc, List.cons_append, Token.splitNumber_digits h.whole,
      Token.splitNumber_cons hpoint, if_pos rfl, List.append_nil,
      List.takeWhile_append_of_pos h.fraction,
      Token.takeWhile_of_head fun u hu => (hrest u hu).1, List.append_nil]

theorem numberLength_eq (h : t.Numeral whole fraction) (hrest : Ended rest) :
    Token.numberLength (t ++ rest) = t.length := by
  simp only [Token.numberLength, h.splitNumber_eq hrest]
  rw [h.text, numeral]
  by_cases hempty : fraction.isEmpty = true
  · rw [if_pos hempty, if_pos hempty, Nat.add_zero]
  · rw [if_neg hempty, if_neg hempty, List.length_append, List.length_cons]

theorem begins (h : t.Numeral whole fraction) : ∃ u more, t = u :: more ∧ isDigit u = true := by
  cases whole with
  | nil => exact absurd rfl h.nonempty
  | cons u whole =>
    refine ⟨u, numeral whole fraction, ?_, h.whole u List.mem_cons_self⟩
    rw [h.text, numeral, numeral]
    split <;> rfl

/-- **A numeral is scanned as one number, of its value.** -/
theorem scanFrom_eq (h : t.Numeral whole fraction) (hrest : Ended rest) (rounding : Rounding)
    (offset : Nat) : Token.scanFrom rounding offset (t ++ rest) =
      ⟨.number (some (.ofMagnitude false ((Magnitude.ofNumeral whole fraction 0).round rounding
        Context.standardPrecision))), offset, (offset + t.length : Nat)⟩ ::
        Token.scanFrom rounding (offset + t.length) rest := by
  have hsplit := h.splitNumber_eq hrest
  have hlength := h.numberLength_eq hrest
  obtain ⟨u, more, rfl, hdigit⟩ := h.begins
  have hspace : u ≠ unit ' ' := by
    rintro rfl
    cases hdigit
  have hlexeme : Token.lexeme rounding u (more ++ rest) =
      (.number (some (.ofMagnitude false ((Magnitude.ofNumeral whole fraction 0).round rounding
        Context.standardPrecision))), more.length) := by
    rw [Token.lexeme, if_pos hdigit, ← List.cons_append, hlength, Token.numberValue, hsplit]
    rfl
  have hnext : offset + 1 + more.length = offset + (u :: more).length := by
    rw [List.length_cons]
    omega
  rw [List.cons_append, Token.scanFrom_cons _ _ _ hspace, hlexeme, hnext, List.drop_left]

theorem units (h : t.Numeral whole fraction) {u : UInt16} (hu : u ∈ t) :
    isDigit u = true ∨ u = unit '.' := by
  rw [h.text, numeral] at hu
  split at hu
  · exact .inl (h.whole u hu)
  · rcases List.mem_append.mp hu with hu | hu
    · exact .inl (h.whole u hu)
    · rcases List.mem_cons.mp hu with hu | hu
      · exact .inr hu
      · exact .inl (h.fraction u hu)

theorem exponent_not_mem (h : t.Numeral whole fraction) : unit 'e' ∉ t := by
  intro hu
  have hunits := h.units hu
  revert hunits
  decide

end Text.Numeral

/-! ## Reading it back -/

/-- The text with a minus sign in front if it is of a negative number. -/
def Text.signed (negative : Bool) (t : Text) : Text := if negative then unit '-' :: t else t

theorem Text.signed_false (t : Text) : t.signed false = t := rfl

theorem Text.signed_true (t : Text) : t.signed true = unit '-' :: t := rfl

theorem scanFrom_exponent (rounding : Rounding) (offset : Nat) (exponent : Text) :
    ∃ stop rest, Token.scanFrom rounding offset (Text.unit 'e' :: exponent) =
      ⟨.identifier, offset, stop⟩ :: rest := by
  have hspace : Text.unit 'e' ≠ Text.unit ' ' := by decide
  exact ⟨_, _, Token.scanFrom_cons rounding offset exponent hspace⟩

theorem scan_minus (rounding : Rounding) (t : Text) :
    Token.scan rounding (Text.unit '-' :: t) = ⟨.minus, 0, 1⟩ :: Token.scanFrom rounding 1 t := by
  have hspace : Text.unit '-' ≠ Text.unit ' ' := by decide
  exact Token.scanFrom_cons rounding 0 t hspace

/-- What a numeral with its sign stands for. -/
def Decimal.withSign (negative : Bool) (x : Decimal) : Decimal := if negative then x.neg else x

theorem Decimal.withSign_false (x : Decimal) : withSign false x = x := rfl

theorem Decimal.withSign_finite (negative : Bool) (m : Magnitude) :
    withSign negative (finite false m) = finite negative m := by
  cases negative <;> rfl

theorem Expr.Yields.minus {scope : Scope} {ctx : Context} {operand : Expr} {x : Decimal}
    (h : operand.Yields scope ctx x) (start stop : Int) :
    (Expr.unary ⟨.minus, start, stop⟩ operand).Yields scope ctx x.neg := by
  intro body
  rw [evalWith, Evaluator.bind_apply, h body]
  rfl

section
variable {t whole fraction : Text}

/-- **A numeral with its sign is an expression that has its value everywhere.** -/
theorem parse_signed_numeral (h : t.Numeral whole fraction) (negative : Bool)
    (rounding : Rounding) :
    ∃ e : Expr, Stmt.parse (t.signed negative) (Token.scan rounding (t.signed negative)) =
        .ok (.expression e) ∧
      ∀ scope ctx, e.Yields scope ctx (.withSign negative (.ofMagnitude false
        ((Magnitude.ofNumeral whole fraction 0).round rounding Context.standardPrecision))) := by
  have hended : Text.Numeral.Ended [] := nofun
  have hscan (offset : Nat) := h.scanFrom_eq hended rounding offset
  simp only [List.append_nil, Token.scanFrom] at hscan
  generalize Decimal.ofMagnitude false ((Magnitude.ofNumeral whole fraction 0).round rounding
    Context.standardPrecision) = value at hscan ⊢
  cases negative with
  | false =>
    refine ⟨.literal value 0, ?_, fun scope ctx => ?_⟩
    · rw [Text.signed_false, Token.scan, hscan]
      rfl
    · rw [Decimal.withSign_false]
      exact .literal value 0
  | true =>
    refine ⟨.unary ⟨.minus, 0, 1⟩ (.literal value 1), ?_, fun scope ctx => ?_⟩
    · rw [Text.signed_true, scan_minus, hscan]
      rfl
    · exact (Expr.Yields.literal value 1).minus 0 1

/-- **A numeral with an exponent behind it is refused at the exponent.** -/
theorem parse_signed_exponent (h : t.Numeral whole fraction) (negative : Bool) (rounding : Rounding)
    (exponent : Text) :
    Stmt.parse ((t ++ Text.unit 'e' :: exponent).signed negative)
        (Token.scan rounding ((t ++ Text.unit 'e' :: exponent).signed negative)) =
      .error (.fault .trailingInput (t.signed negative).length) := by
  have hended : Text.Numeral.Ended (Text.unit 'e' :: exponent) := by
    rintro u ⟨⟩
    decide
  cases negative with
  | false =>
    obtain ⟨stop, rest, hexponent⟩ := scanFrom_exponent rounding (0 + t.length) exponent
    rw [Text.signed_false, Token.scan, h.scanFrom_eq hended, hexponent, Nat.zero_add]
    rfl
  | true =>
    obtain ⟨stop, rest, hexponent⟩ := scanFrom_exponent rounding (1 + t.length) exponent
    rw [Text.signed_true, scan_minus, h.scanFrom_eq hended, hexponent, Nat.add_comm 1]
    rfl

end

/-! ## What is shown -/

namespace Decimal

variable {m : Magnitude} {p : Nat}

/-- What is shown of a number other than zero, if that many digits can be asked for. -/
theorem display_of_range (negative : Bool) (hp : p ≤ maxDisplayPlaces + 1)
    (hzero : m.isZero = false) (hrange : (m.round .halfEven p).lead ≤ maxExponent) :
    (finite negative m).display p = .ok ((Text.display p
      (Digits.text (m.round .halfEven p).coeff)
      ((m.round .halfEven p).lead + 1)).signed negative) := by
  have hplaces : ¬ maxDisplayPlaces < p - 1 := by omega
  simp only [display, hzero, Bool.false_eq_true, if_false, if_neg hplaces, Magnitude.displayDigits,
    if_neg (Int.not_lt.mpr hrange)]
  rfl

end Decimal

namespace Text

theorem exponent_mem_signed {negative : Bool} {t : Text} :
    unit 'e' ∈ t.signed negative ↔ unit 'e' ∈ t := by
  cases negative with
  | false => exact Iff.rfl
  | true =>
    rw [signed_true, List.mem_cons]
    exact or_iff_right (by decide)

/-- The text in front of the exponent. -/
theorem takeWhile_signed {t whole fraction : Text} (h : t.Numeral whole fraction) (negative : Bool)
    (exponent : Text) : ((t ++ unit 'e' :: exponent).signed negative).takeWhile (· ≠ unit 'e') =
      t.signed negative := by
  have hfront : ∀ u ∈ t.signed negative, decide (u ≠ unit 'e') = true := by
    intro u hu
    refine decide_eq_true ?_
    rintro rfl
    exact h.exponent_not_mem (exponent_mem_signed.mp hu)
  have hsplit : (t ++ unit 'e' :: exponent).signed negative =
      t.signed negative ++ unit 'e' :: exponent := by
    cases negative <;> rfl
  rw [hsplit, List.takeWhile_append_of_pos hfront, List.takeWhile_cons]
  simp

end Text

/-- In the standard context the text is read as a statement that has this value whatever the names
stand for, and that changes nothing. -/
def Text.Means (t : Text) (value : Decimal) : Prop :=
  ∃ stmt, Stmt.parse t (Token.scan Context.standard.rounding t) = .ok stmt ∧
    ∀ scope persist, stmt.evaluate scope persist .standard = (.ok (value, scope.env), .standard)

theorem means_of_numeral {t whole fraction : Text} (h : t.Numeral whole fraction) (negative : Bool)
    {m : Magnitude} (hvalue : Magnitude.ofNumeral whole fraction 0 = m)
    (hdigits : m.digitCount ≤ 78) (hfinite : Decimal.ofMagnitude false m = .finite false m) :
    (t.signed negative).Means (.finite negative m) := by
  obtain ⟨e, hparse, hyields⟩ := parse_signed_numeral h negative Context.standard.rounding
  have hround : m.round Context.standard.rounding Context.standardPrecision = m :=
    if_pos hdigits
  rw [hvalue, hround, hfinite, Decimal.withSign_finite] at hyields
  refine ⟨.expression e, hparse, fun scope persist => ?_⟩
  simp only [Stmt.evaluate, (hyields scope .standard).evalTop]
  rfl

/-- A number with its point inside of the precision is typed back as it is shown. -/
theorem shown_inside {m : Magnitude} {p : Nat} (negative : Bool) (hzero : m.isZero = false)
    (hleast : 1 ≤ p) (hmost : p ≤ 78) (hdigits : m.digitCount ≤ p)
    (hinside : -(p : ℤ) < m.lead + 1 ∧ m.lead + 1 ≤ p) :
    ∃ t, Text.display p (Digits.text m.coeff) (m.lead + 1) = t ∧ Text.unit 'e' ∉ t ∧
      (t.signed negative).Means (.finite negative m) := by
  obtain ⟨whole, fraction, hnumeral, hvalue⟩ := Magnitude.positional_numeral hzero
  have hlength : (Digits.text m.coeff).length ≤ p := by
    rw [Digits.length_text]
    exact hdigits
  have hmax : (78 : ℤ) ≤ Decimal.maxExponent := by decide
  have hfinite : Decimal.ofMagnitude false m = .finite false m :=
    Context.ofMagnitude_of_range false hzero (by omega) (by omega)
  refine ⟨_, Text.display_positional hleast hlength hinside.1 hinside.2,
    hnumeral.exponent_not_mem, ?_⟩
  exact means_of_numeral hnumeral negative hvalue (hdigits.trans hmost) hfinite

/-- A number with its point elsewhere is shown with an exponent, and refused there. -/
theorem shown_outside {m : Magnitude} {p : Nat} (negative : Bool) (hzero : m.isZero = false)
    (hleast : 1 ≤ p) (houtside : m.lead + 1 ≤ -(p : ℤ) ∨ p < m.lead + 1) :
    ∃ t, Text.display p (Digits.text m.coeff) (m.lead + 1) = t ∧ Text.unit 'e' ∈ t ∧
      Stmt.parse (t.signed negative) (Token.scan Context.standard.rounding (t.signed negative)) =
        .error (.fault .trailingInput
          ((t.signed negative).takeWhile (· ≠ Text.unit 'e')).length) := by
  obtain ⟨whole, fraction, hnumeral, -⟩ := Text.positional_numeral
    (fun u hu => Digits.isDigit_of_mem_text hu) (Magnitude.text_ne_nil hzero) 1
  refine ⟨_, Text.display_scientific hleast houtside, ?_, ?_⟩
  · exact List.mem_append_right _ List.mem_cons_self
  · rw [Text.scientific, Text.takeWhile_signed hnumeral]
    exact parse_signed_exponent hnumeral negative Context.standard.rounding _

theorem means_zero : Text.Means "0" .zero := by
  have hnumeral : Text.Numeral "0" "0" [] :=
    ⟨rfl, by decide, fun _ hu => Text.isDigit_of_mem_zeros (k := 1) hu, nofun⟩
  exact means_of_numeral hnumeral false rfl (by decide) rfl

/-- **What is shown means the rounded number or is refused.** For a finite number and 1 to 78
digits, the shown text without an exponent means the number rounded half-even to that many digits,
and is shown for it again. With an exponent it is refused where the exponent begins. -/
theorem shown_means_rounded (negative : Bool) (m : Magnitude) {p : Nat} (hleast : 1 ≤ p)
    (hmost : p ≤ 78) (hrange : (m.round .halfEven p).lead ≤ Decimal.maxExponent) :
    ∃ t, (Decimal.finite negative m).display (displayPrecision p) = .ok t ∧
      (Text.unit 'e' ∉ t → ∃ value q, t.Means value ∧
        Rounding.halfEven.RoundsTo p m.toRat q ∧
        value.number? = some (if negative then -q else q) ∧
        value.display (displayPrecision p) = .ok t) ∧
      (Text.unit 'e' ∈ t → Stmt.parse t (Token.scan Context.standard.rounding t) =
        .error (.fault .trailingInput (t.takeWhile (· ≠ Text.unit 'e')).length)) := by
  have hprecision : displayPrecision p = p := by
    rw [Session.displayPrecision_natCast]
    omega
  rw [hprecision]
  cases hzero : m.isZero with
  | true =>
    have hnone := Magnitude.toRat_of_isZero hzero
    obtain rfl : m = .zero := Magnitude.toRat_inj (hnone.trans (Magnitude.toRat_of_isZero rfl).symm)
    refine ⟨"0", rfl, fun _ => ⟨.zero, 0, means_zero, .inl ⟨hnone, rfl⟩, ?_, rfl⟩, fun hmem => ?_⟩
    · have hnumber : Decimal.zero.number? = some 0 := congrArg some hnone
      rw [hnumber, neg_zero, ite_self]
    · exact absurd hmem (by decide)
  | false =>
    obtain ⟨hround, -, -⟩ := Magnitude.lead_round hzero .halfEven hleast
    have hdigits := m.digitCount_round_le .halfEven hleast
    have hplaces : p ≤ maxDisplayPlaces + 1 := hmost.trans (by decide)
    have hshown := Decimal.display_of_range negative hplaces hzero hrange
    have hagain : (m.round .halfEven p).round .halfEven p = m.round .halfEven p := if_pos hdigits
    have hshown' := Decimal.display_of_range negative hplaces hround (by rwa [hagain])
    rw [hagain] at hshown'
    by_cases hinside : -(p : ℤ) < (m.round .halfEven p).lead + 1 ∧
        (m.round .halfEven p).lead + 1 ≤ p
    · obtain ⟨t, ht, hexponent, hmeans⟩ :=
        shown_inside negative hround hleast hmost hdigits hinside
      rw [ht] at hshown hshown'
      refine ⟨_, hshown, fun _ => ?_, fun hmem => ?_⟩
      · exact ⟨_, _, hmeans, m.round_roundsTo .halfEven p, rfl, hshown'⟩
      · exact absurd (Text.exponent_mem_signed.mp hmem) hexponent
    · obtain ⟨t, ht, hexponent, hrefused⟩ := shown_outside negative hround hleast (by omega)
      rw [ht] at hshown
      refine ⟨_, hshown, fun hnot => ?_, fun _ => hrefused⟩
      exact absurd (Text.exponent_mem_signed.mpr hexponent) hnot

/-- Digits behind the last one that is shown are rounded, half to the even digit. -/
theorem shown_means_rounded_tie :
    ∃ t, (Decimal.finite true (.ofScaled 12345 (-3))).display (displayPrecision 4) = .ok t ∧
      Text.unit 'e' ∉ t ∧ ∃ value q, t.Means value ∧
        Rounding.halfEven.RoundsTo 4 (Magnitude.ofScaled 12345 (-3)).toRat q ∧
        value.number? = some (-q) ∧ value.display (displayPrecision 4) = .ok t := by
  have hshown : (Decimal.finite true (.ofScaled 12345 (-3))).display (displayPrecision 4) =
      .ok "-12.34" := by
    decide +kernel
  obtain ⟨t, ht, hmeans, -⟩ := shown_means_rounded true (.ofScaled 12345 (-3))
    (p := 4) (by decide) (by decide) (by decide +kernel)
  obtain rfl : t = "-12.34" := Except.ok.inj (ht.symm.trans hshown)
  have hexponent : Text.unit 'e' ∉ ("-12.34" : Text) := by decide
  exact ⟨_, ht, hexponent, hmeans hexponent⟩

end Reckoner
