import Mathlib.Computability.RegularExpressions
import Reckoner.Proofs.ExactArithmetic
import Reckoner.Proofs.Formatting
import Reckoner.Proofs.Sessions.SignificantDigits

/-!
# Answers that can be read

What is shown of a finite value is a number, unless showing it with fewer digits than it has rounds
it beyond the range of exponents. The word for infinity that stands in place of the digits then gets
a point behind its first letter, like digits would (`Decimal.display_of_overruns`). All other
answers of a session are numbers or the words for what is not a number (`answers_legible_iff`).
-/

namespace Reckoner

/-! ## The pattern of numbers -/

namespace Text

open RegularExpression

variable {t : Text}

def anyOf (units : Text) : RegularExpression UInt16 := units.foldr (fun u rest => char u + rest) 0

def optional (p : RegularExpression UInt16) : RegularExpression UInt16 := 1 + p

def oneOrMore (p : RegularExpression UInt16) : RegularExpression UInt16 := p * p.star

def digitsPattern : RegularExpression UInt16 := oneOrMore (anyOf "0123456789")

/-- Digits with a minus sign or none in front. -/
def integerPattern : RegularExpression UInt16 := optional (char (unit '-')) * digitsPattern

/-- A minus sign or none, digits, a point with digits behind it or none, an exponent or none. -/
def numberPattern : RegularExpression UInt16 :=
  integerPattern * (optional (char (unit '.') * digitsPattern) *
    optional (char (unit 'e') * integerPattern))

/-- A number, or one of the words for what is none. -/
def Legible (t : Text) : Prop :=
  t = "NaN" ∨ t = "inf" ∨ t = "-inf" ∨ numberPattern.rmatch t = true

instance : DecidablePred Legible := fun _ => inferInstanceAs (Decidable (_ ∨ _ ∨ _ ∨ _))

theorem mem_anyOf {units : Text} {u : UInt16} (h : u ∈ units) : [u] ∈ (anyOf units).matches' := by
  induction units with
  | nil => cases h
  | cons v rest ih =>
    rcases List.mem_cons.mp h with rfl | h
    · exact .inl rfl
    · exact .inr (ih h)

theorem mem_digits {u : UInt16} (h : isDigit u = true) : u ∈ ("0123456789" : Text) := by
  have hall : ∀ n ≤ 57, 48 ≤ n → UInt16.ofNat n ∈ ("0123456789" : Text) := by decide
  simp only [isDigit, Bool.and_eq_true, decide_eq_true_eq, UInt16.le_iff_toNat_le] at h
  have hu := hall u.toNat h.2 h.1
  rwa [UInt16.ofNat_toNat] at hu

theorem mem_char (u : UInt16) : [u] ∈ (char u).matches' := rfl

theorem nil_mem_optional (p : RegularExpression UInt16) : [] ∈ (optional p).matches' := .inl rfl

theorem mem_optional {p : RegularExpression UInt16} (h : t ∈ p.matches') :
    t ∈ (optional p).matches' := .inr h

theorem mem_digitsPattern (hne : t ≠ []) (h : ∀ u ∈ t, isDigit u = true) :
    t ∈ digitsPattern.matches' := by
  have hunit {u : UInt16} (hu : u ∈ t) : [u] ∈ (anyOf "0123456789").matches' :=
    mem_anyOf (mem_digits (h u hu))
  cases t with
  | nil => exact absurd rfl hne
  | cons first rest =>
    have hrest : (rest.map fun u => [u]).flatten ∈ (anyOf "0123456789").star.matches' := by
      apply Language.join_mem_kstar
      intro word hword
      obtain ⟨u, hu, rfl⟩ := List.mem_map.mp hword
      exact hunit (List.mem_cons_of_mem first hu)
    rw [← List.flatMap_def, List.flatMap_singleton'] at hrest
    exact Language.append_mem_mul (hunit List.mem_cons_self) hrest

theorem mem_integerPattern (negative : Bool) (hne : t ≠ []) (h : ∀ u ∈ t, isDigit u = true) :
    t.signed negative ∈ integerPattern.matches' := by
  have hdigits := mem_digitsPattern hne h
  cases negative with
  | false => exact Language.append_mem_mul (nil_mem_optional _) hdigits
  | true => exact Language.append_mem_mul (mem_optional (mem_char _)) hdigits

theorem ofInt_mem_integerPattern (n : ℤ) : ofInt n ∈ integerPattern.matches' := by
  have hdigits (negative : Bool) := mem_integerPattern negative (ofNat_ne_nil n.natAbs)
    fun u => isDigit_of_mem_ofNat
  unfold ofInt
  split
  · exact hdigits true
  · exact hdigits false

/-- Every spelling matches the pattern. -/
theorem Spelling.legible {negative : Bool} {whole fraction : Text} {exponent : Option ℤ}
    (h : t.Spelling negative whole fraction exponent) : t.Legible := by
  have hpoint : ∃ tail ∈ (optional (char (unit '.') * digitsPattern)).matches',
      numeral whole fraction = whole ++ tail := by
    unfold numeral
    cases hfraction : fraction with
    | nil => exact ⟨[], nil_mem_optional _, (List.append_nil whole).symm⟩
    | cons u rest =>
      have hdigits := mem_digitsPattern (List.cons_ne_nil u rest) (hfraction ▸ h.fraction)
      exact ⟨_, mem_optional (Language.append_mem_mul (mem_char _) hdigits), rfl⟩
  have hmark : exponentMark exponent ∈ (optional (char (unit 'e') * integerPattern)).matches' := by
    cases exponent with
    | none => exact nil_mem_optional _
    | some n =>
      exact mem_optional (Language.append_mem_mul (mem_char _) (ofInt_mem_integerPattern n))
  obtain ⟨tail, htail, hnumeral⟩ := hpoint
  have hsigned : t = whole.signed negative ++ (tail ++ exponentMark exponent) := by
    rw [h.text, hnumeral, List.append_assoc]
    cases negative <;> rfl
  refine .inr (.inr (.inr ((rmatch_iff_matches' _ _).mpr ?_)))
  rw [hsigned]
  exact Language.append_mem_mul (mem_integerPattern negative h.nonempty h.whole)
    (Language.append_mem_mul htail hmark)

end Text

/-! ## Beyond the range -/

namespace Decimal

variable {p : Nat} {x : Decimal} {negative : Bool} {m : Magnitude} {t : Text}

/-- Rounding the number half-even to so many digits takes it beyond the range of exponents. -/
def Overruns (p : Nat) (x : Decimal) : Prop :=
  ∃ q r, x.number? = some q ∧ Rounding.halfEven.RoundsTo p |q| r ∧ 10 ^ (maxExponent + 1) ≤ r

theorem overruns_iff (hp : 0 < p) :
    (finite negative m).Overruns p ↔ maxExponent < (m.round .halfEven p).lead := by
  have hnumber : (finite negative m).number? = some (signedBy negative m.toRat) := rfl
  have habs := abs_signedBy_toRat negative m
  have hrounds := m.round_roundsTo .halfEven p
  constructor
  · rintro ⟨q, r, hq, hr, hbeyond⟩
    obtain rfl : _ = q := Option.some.inj (hnumber.symm.trans hq)
    rw [habs] at hr
    have hle : r ≤ (m.round .halfEven p).toRat := hr.mono hp hrounds (le_refl _)
    exact Magnitude.le_lead (hbeyond.trans hle)
  · intro hlead
    have hzero : (m.round .halfEven p).isZero = false := by
      by_contra hzero
      rw [Magnitude.lead_of_isZero (Bool.eq_true_of_not_eq_false hzero)] at hlead
      exact absurd hlead (by decide)
    refine ⟨_, _, hnumber, habs.symm ▸ hrounds, ?_⟩
    exact (zpow_le_zpow_right₀ (by norm_num) hlead).trans (Magnitude.zpow_lead_le hzero)

theorem isZero_of_overruns (hp : 0 < p) (h : (finite negative m).Overruns p) :
    m.isZero = false := by
  rw [overruns_iff hp] at h
  by_contra hzero
  have hzero := Bool.eq_true_of_not_eq_false hzero
  rw [Magnitude.round_of_isZero hzero, Magnitude.lead_of_isZero hzero] at h
  exact absurd h (by decide)

/-- The places that are asked for are not too many if a nonzero number is shown. -/
theorem places_of_display (hzero : m.isZero = false) (ht : (finite negative m).display p = .ok t) :
    p ≤ maxDisplayPlaces + 1 := by
  by_contra hmost
  have hplaces : maxDisplayPlaces < p - 1 := by omega
  simp only [display, hzero, Bool.false_eq_true, if_false, if_pos hplaces] at ht
  cases ht

theorem display_infinity (hp : 0 < p) :
    Text.display p "Infinity" 1 = (if p = 1 then "Infinity" else "I.nfinity" : Text) := by
  by_cases hone : p = 1
  · rw [hone]
    decide
  · have hmore : ¬ (1 : ℤ) = p := by omega
    have hinside : -(p : ℤ) < 1 ∧ (1 : ℤ) < p := by omega
    rw [Text.display, if_neg hmore, if_pos hinside, if_neg hone]
    decide

/-- What is beyond the range is shown as the word for it, with a point if there is room. -/
theorem display_of_overruns (hp : 0 < p) (h : x.Overruns p) (ht : x.display p = .ok t) :
    t = (if p = 1 then "Infinity" else "I.nfinity" : Text).signed x.isNegative := by
  obtain ⟨q, -, hq, -⟩ := id h
  cases x with
  | nan => cases hq
  | infinite negative => cases hq
  | finite negative m =>
    have hzero := isZero_of_overruns hp h
    have hplaces := places_of_display hzero ht
    have hlead := (overruns_iff hp).mp h
    simp only [display, hzero, Bool.false_eq_true, if_false, Magnitude.displayDigits, if_pos hlead,
      if_neg (show ¬ maxDisplayPlaces < p - 1 by omega), display_infinity hp] at ht
    exact (Except.ok.inj ht).symm

theorem display_legible (hp : 0 < p) (h : ¬ x.Overruns p) (ht : x.display p = .ok t) :
    t.Legible := by
  cases x with
  | nan =>
    cases ht
    exact .inl rfl
  | infinite negative =>
    cases ht
    cases negative with
    | false => exact .inr (.inl rfl)
    | true => exact .inr (.inr (.inl rfl))
  | finite negative m =>
    cases hzero : m.isZero with
    | true =>
      rw [display, if_pos hzero] at ht
      cases ht
      decide
    | false =>
      have hrange := Int.not_lt.mp ((overruns_iff hp).not.mp h)
      obtain ⟨hround, -, -⟩ := Magnitude.lead_round hzero .halfEven hp
      obtain ⟨whole, fraction, exponent, hspelling, -⟩ :=
        Magnitude.display_spelling hround hp (m.digitCount_round_le .halfEven hp) negative
      rw [display_of_range negative (places_of_display hzero ht) hzero hrange] at ht
      cases ht
      exact hspelling.legible

theorem not_legible_infinity (p : Nat) (negative : Bool) :
    ¬ ((if p = 1 then "Infinity" else "I.nfinity" : Text).signed negative).Legible := by
  split <;> cases negative <;> decide +kernel

/-- **A value is shown legibly just if showing it does not take it beyond the range.** -/
theorem legible_display_iff (hp : 0 < p) (ht : x.display p = .ok t) :
    t.Legible ↔ ¬ x.Overruns p := by
  refine ⟨?_, fun h => display_legible hp h ht⟩
  intro hlegible hbeyond
  rw [display_of_overruns hp hbeyond ht] at hlegible
  exact not_legible_infinity p x.isNegative hlegible

/-- Only digits that are not shown can take a value beyond the range. -/
theorem Overruns.lt {digits : Nat} (hp : 0 < p) (h : x.Overruns p) (hx : x.Within digits) :
    p < digits := by
  obtain ⟨q, -, hq, -⟩ := id h
  cases x with
  | nan => cases hq
  | infinite negative => cases hq
  | finite negative m =>
    obtain ⟨hcount, -, hlead⟩ := hx
    have hbeyond := (overruns_iff hp).mp h
    by_contra hall
    rw [Magnitude.round, if_pos (by omega)] at hbeyond
    omega

end Decimal

/-! ## Answers -/

/-- **Every value that is found is shown, and legibly unless that takes it beyond the range.** This
is so in whatever state the events of a process have left a session that shows no more digits than
can be asked for. An answer that is not legible has more digits than are shown, and is the word for
infinity with a point behind its first letter, or without one if a single digit is shown. -/
theorem answers_legible_iff (events : List Process.Event) {number : Nat} {s : Session}
    (hs : (Process.initial.after events).sessions[number]? = some s)
    (hdigits : s.settings.displayDigits ≤ 1000000001) (request : Request) :
    let p := Process.initial.after events
    let shown := max 1 s.settings.displayDigits
    (∀ stmt value, (s.outcome request.text p.shared.context).1 = .ok (stmt, value) →
      ∃ output, (p.step (.request number request)).1 = some (.ok ⟨value, output, stmt⟩)) ∧
    ∀ answer, (p.step (.request number request)).1 = some (.ok answer) →
      (answer.output.Legible ↔ ¬ answer.value.Overruns shown) ∧
      (answer.value.Overruns shown → shown < p.shared.context.precision ∧
        answer.output = (if shown = 1 then "Infinity" else "I.nfinity" : Text).signed
          answer.value.isNegative) := by
  intro p shown
  have hshown : displayPrecision s.settings.displayDigits = shown :=
    Session.displayPrecision_natCast _
  have hpos : 0 < shown := Nat.le_max_left 1 _
  have hstep : (p.step (.request number request)).1 =
      some ((s.result request.text p.shared.context).mapError .ofFailure) := by
    rw [Process.step_request hs, Desk.handle_result]
  rw [hstep]
  constructor
  · intro stmt value houtcome
    obtain ⟨output, houtput⟩ := Session.format_ok hdigits value
    refine ⟨output, ?_⟩
    rw [Session.result, houtcome]
    simp only [Except.bind, houtput]
    rfl
  · intro answer hanswer
    obtain ⟨houtcome, hformat⟩ := Session.result_ok (ok_of_mapError (Option.some.inj hanswer))
    have hdisplay : answer.value.display shown = .ok answer.output := by
      rw [← hshown]
      exact ok_of_mapError hformat
    refine ⟨Decimal.legible_display_iff hpos hdisplay, ?_⟩
    intro hbeyond
    have hwithin := Process.within_initial.after events
    have hvalue := Session.outcome_within hwithin.least
      (hwithin.session s (List.mem_of_getElem? hs)) houtcome
    exact ⟨hbeyond.lt hpos hvalue, Decimal.display_of_overruns hpos hbeyond hdisplay⟩

theorem answer_of_output {result : Option (Except Refusal Answer)} {t : Text}
    (h : (result.bind Except.toOption).map Answer.output = some t) :
    ∃ answer, result = some (.ok answer) ∧ answer.output = t := by
  obtain ⟨answer, hanswer, houtput⟩ := Option.map_eq_some_iff.mp h
  obtain ⟨found, rfl, hfound⟩ := Option.bind_eq_some_iff.mp hanswer
  exact ⟨answer, congrArg some (eq_ok_of_toOption hfound), houtput⟩

/-- At the end of the range, a value of as many digits as are shown is a number. -/
theorem answers_legible_iff_at_limit :
    let p := Process.initial.after [.start ⟨3, 256, false⟩]
    ∃ answer, (p.step (.request 0 (.commit "-9.99*10^9000000000000000"))).1 = some (.ok answer) ∧
      answer.output = ("-9.99e9000000000000000" : Text) ∧
      answer.output.Legible ∧ ¬ answer.value.Overruns 3 := by
  intro p
  obtain ⟨answer, hanswer, houtput⟩ : ∃ answer,
      (p.step (.request 0 (.commit "-9.99*10^9000000000000000"))).1 = some (.ok answer) ∧
      answer.output = "-9.99e9000000000000000" :=
    answer_of_output (by decide +kernel)
  obtain ⟨-, hshown⟩ := @answers_legible_iff [.start ⟨3, 256, false⟩] 0 _ rfl (by decide)
    (.commit "-9.99*10^9000000000000000")
  have hlegible : answer.output.Legible := by
    rw [houtput]
    decide +kernel
  exact ⟨answer, hanswer, houtput, hlegible, (hshown answer hanswer).1.mp hlegible⟩

/-- A value of more digits is rounded beyond the range, and neither a number nor a word is shown. -/
theorem answer_beyond_range_not_legible :
    let p := Process.initial.after [.start .default]
    ∃ answer, (p.step (.request 0
        (.commit "9.99999999999999999999999999999999999*10^9000000000000000"))).1 =
        some (.ok answer) ∧
      answer.output = ("I.nfinity" : Text) ∧ ¬ answer.output.Legible := by
  intro p
  obtain ⟨answer, hanswer, houtput⟩ : ∃ answer, (p.step (.request 0
      (.commit "9.99999999999999999999999999999999999*10^9000000000000000"))).1 =
      some (.ok answer) ∧ answer.output = "I.nfinity" := answer_of_output (by decide +kernel)
  refine ⟨answer, hanswer, houtput, ?_⟩
  rw [houtput]
  decide +kernel

end Reckoner
