import Reckoner.Decimal.Series

/-!
The sine. Its argument is reduced by multiples of pi, of which a limited number of digits is
at hand: an argument that needs more is refused, and the context that was set up for the
reduction stays in force.
-/

namespace Reckoner

namespace Magnitude

/-- The multiple of pi below a positive argument is taken off, and the sine of the rest is
summed; an odd multiple turns the sign. -/
def encloseSine (m : Magnitude) (places : Nat) : Enclosure :=
  let scale := pow10 places
  let x := m.coeff * pow10 (m.exp + places).toNat / pow10 (-(m.exp + places)).toNat
  let pi := (Series.pi scale).toNat
  let turns := x / pi
  let rest := min (x % pi) (pi - x % pi)
  let sine := (Series.sin rest scale).toNat
  let error := (turns + 2) * (Series.piError scale + 1) + 3 * Series.steps scale
  ⟨turns % 2 == 1, sine - error, sine + error, -places⟩

/-- The sine of a positive argument rounded to `digits` digits, and whether it is negative.
Of an argument so small that its square is lost, the sine is just below it. -/
def sine (rounding : Rounding) (digits : Nat) (m : Magnitude) : Bool × Magnitude :=
  let shift := digits + 2
  if m.digitCount + shift + 2 * m.lead + 2 ≤ 0 then
    (false, (Magnitude.ofScaled (m.coeff * pow10 shift - 1) (m.exp - shift)).round rounding digits)
  else
    let places (guardDigits : Nat) := digits + guardDigits + m.lead.natAbs
    Enclosure.settle rounding digits (m.encloseSine ∘ places) 8 32

end Magnitude

namespace Context

/-- The digits of pi at hand. -/
def sineLimit : Nat := 1025

/-- The digits that reducing an argument needs. They are added up exactly, however many there are:
that each refusal raises the precision (`Context.Refused.precision_lt`) rests on this. That none
lowers it does not, and what is said elsewhere about refusals needs no more than that. -/
def sinePrecision (ctx : Context) (m : Magnitude) : Nat :=
  (ctx.precision + max m.lead m.digitCount + 7).toNat

/-- The sine, or the context that a refused argument leaves behind. -/
def sin (ctx : Context) : Decimal → Except Context Decimal
  | .finite negative m =>
    if m.isZero then .ok (.finite negative m)
    else if sineLimit < ctx.sinePrecision m then .error ⟨ctx.sinePrecision m, .towardZero⟩
    else
      let (turned, sine) := m.sine ctx.rounding ctx.precision
      .ok (ctx.finish (negative != turned) sine)
  | _ => .ok .nan

end Context
end Reckoner
