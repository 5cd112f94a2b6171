import Reckoner.Decimal.Arithmetic

/-!
Integer powers by repeated squaring. Digits are counted in blocks of seven from the point, and
every product is cut to as many blocks as leave at least twenty-eight digits to spare.
-/

namespace Reckoner

namespace Magnitude

def mul (a b : Magnitude) : Magnitude := .ofScaled (a.coeff * b.coeff) (a.exp + b.exp)

def blockSize : Nat := 7

/-- The exponent of the last digit in the first `n` blocks, the one of the leading digit being
the first. -/
def blockEnd (n : Nat) (m : Magnitude) : Int := blockSize * (m.lead / blockSize - n + 1)

/-- The first `n` blocks of digits. -/
def takeBlocks (n : Nat) (m : Magnitude) : Magnitude :=
  let exp := m.blockEnd n
  if exp ≤ m.exp then m else .ofScaled (m.coeff / pow10 (exp - m.exp).toNat) exp

/-- The first `n` blocks of digits. If more are cut off and the last block is all zeros, it ends
in a one as a trace of them. -/
def takeBlocksTraced (n : Nat) (m : Magnitude) : Magnitude :=
  let exp := m.blockEnd n
  if exp ≤ m.exp then m
  else
    let coeff := m.coeff / pow10 (exp - m.exp).toNat
    .ofScaled (if coeff % pow10 blockSize = 0 then coeff + 1 else coeff) exp

/-- The product of `acc` and the `n`-th power of `x`, for a positive `n`. -/
def mulPower (blocks : Nat) (acc x : Magnitude) (n : Nat) : Magnitude :=
  if n ≤ 1 then (acc.mul x).takeBlocksTraced blocks
  else
    let acc := if n % 2 = 1 then (acc.mul x).takeBlocks blocks else acc
    mulPower blocks acc ((x.mul x).takeBlocks blocks) (n / 2)
termination_by n

end Magnitude

namespace Context

/-- The blocks of digits that hold the working precision, and four to spare. -/
def powerBlocks (ctx : Context) : Nat :=
  (ctx.precision + Magnitude.blockSize - 1) / Magnitude.blockSize + 4

/-- The power with exponent `±n`, for a positive `n`. A negative exponent divides one by the
power, which is infinite or zero if it is out of range. -/
def powInteger (ctx : Context) (p : Bool) (a : Magnitude) (q : Bool) (n : Nat) : Decimal :=
  let negative := p && n % 2 == 1
  let power := Magnitude.mulPower ctx.powerBlocks .one a n
  if q then ctx.div .one (.ofMagnitude negative power) else ctx.finish negative power

end Context
end Reckoner
