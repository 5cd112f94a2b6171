import Reckoner.Proofs.ReadBack

/-!
# Exact texts

The exact text of a number without a sign can be read back: it is a numeral, maybe with an exponent
behind it, and a positive exponent has a sign that reading passes over
(`Magnitude.magnitude?_text`).
-/

namespace Reckoner

/-- Reads an exact text. -/
def Text.magnitude? (t : Text) : Option Magnitude :=
  Decimal.readMagnitude? (t.filter (· ≠ unit '+'))

theorem Text.units_ofInt {n : Int} {u : UInt16} (hu : u ∈ ofInt n) :
    isDigit u = true ∨ u = unit '-' := by
  unfold ofInt at hu
  split at hu
  · rcases List.mem_cons.mp hu with hu | hu
    · exact .inr hu
    · exact .inl (isDigit_of_mem_ofNat hu)
  · exact .inl (isDigit_of_mem_ofNat hu)

namespace Magnitude

variable {m : Magnitude} {u : UInt16}

theorem units_positional (hzero : m.isZero = false) {places : ℤ}
    (hu : u ∈ Text.positional (Digits.text m.coeff) places) :
    Text.isDigit u = true ∨ u = Text.unit '.' := by
  obtain ⟨whole, fraction, hnumeral, -⟩ := Text.positional_numeral
    (fun u hu => Digits.isDigit_of_mem_text hu) (text_ne_nil hzero) places
  exact hnumeral.units hu

theorem units_text (hu : u ∈ m.text) : Text.isDigit u = true ∨ u = Text.unit '.' ∨
    u = Text.unit 'e' ∨ u = Text.unit '+' ∨ u = Text.unit '-' := by
  unfold text at hu
  split at hu
  · exact .inl (Text.isDigit_of_mem_ofNat hu)
  · rename_i hzero
    have hdigits (places : ℤ) (hu : u ∈ Text.positional (Digits.text m.coeff) places) :
        Text.isDigit u = true ∨ u = Text.unit '.' := units_positional (by simpa using hzero) hu
    have hlead (hu : u ∈ Text.ofInt m.lead) : Text.isDigit u = true ∨ u = Text.unit '-' :=
      Text.units_ofInt hu
    split at hu
    · grind
    · simp only [Text.scientific, List.mem_append, List.mem_cons] at hu
      grind

/-- **The exact text of a number is read as that number.** -/
theorem magnitude?_text (m : Magnitude) : m.text.magnitude? = some m := by
  have hkeep {t : Text} (h : Text.unit '+' ∉ t) : t.filter (· ≠ Text.unit '+') = t := by
    apply List.filter_eq_self.mpr
    intro u hu
    simpa using ne_of_mem_of_not_mem hu h
  have hdigits {places : ℤ} (hzero : m.isZero = false) :
      Text.unit '+' ∉ Text.positional (Digits.text m.coeff) places := by
    intro hu
    exact absurd (units_positional hzero hu) (by decide)
  have hlead : Text.unit '+' ∉ Text.ofInt m.lead := by
    intro hu
    exact absurd (Text.units_ofInt hu) (by decide)
  unfold text Text.magnitude?
  split
  · rename_i hzero
    have hread : Decimal.readMagnitude? ((Text.ofNat 0).filter (· ≠ Text.unit '+')) =
        some .zero := by
      decide
    rw [hread]
    exact congrArg some (toRat_inj ((toRat_of_isZero rfl).trans (toRat_of_isZero hzero).symm))
  · rename_i hzero
    have hzero : m.isZero = false := by simpa using hzero
    split
    · rw [hkeep (hdigits hzero)]
      exact readMagnitude?_positional hzero
    · have hexponent : (if 0 ≤ m.lead then Text.unit '+' :: Text.ofInt m.lead else
          Text.ofInt m.lead).filter (· ≠ Text.unit '+') = Text.ofInt m.lead := by
        split
        · rw [List.filter_cons_of_neg (by simp), hkeep hlead]
        · exact hkeep hlead
      rw [Text.scientific, List.filter_append, List.filter_cons_of_pos (by decide), hexponent,
        hkeep (hdigits hzero)]
      exact readMagnitude?_scientific hzero

end Magnitude
end Reckoner
