import Reckoner.Builtin
import Reckoner.Decimal.Power
import Reckoner.Proofs.Displayed

/-!
# How many digits results have

Every operation ends by rounding to the working precision, or it gives a zero, an infinity, NaN or
one, or it hands on one of its operands. So what the arithmetic makes of numbers within a number of
digits and the exponent range is within the precision and the range again: sums, products,
quotients, roots, powers and sines whatever their operands are, and the built-in functions if their
arguments are (`Builtin.apply_within`).
-/

namespace Reckoner

theorem Magnitude.digitCount_of_isZero {m : Magnitude} (h : m.isZero = true) :
    m.digitCount = 0 := by
  have hcoeff : m.coeff = 0 := by simpa [isZero] using h
  rw [digitCount, hcoeff]
  rfl

theorem Magnitude.lead_of_isZero {m : Magnitude} (h : m.isZero = true) : m.lead = -1 := by
  have hcoeff : m.coeff = 0 := by simpa [isZero] using h
  have hexp : m.exp = 0 := by
    rcases m.canonical with hlast | hzero
    · omega
    · exact hzero.2
  rw [lead, digitCount_of_isZero h, hexp]
  rfl

namespace Decimal

/-- A finite number has at most so many significant digits, and its exponent is in range. -/
def Within (digits : Nat) : Decimal → Prop
  | finite _ m => m.digitCount ≤ digits ∧ -maxExponent ≤ m.lead ∧ m.lead ≤ maxExponent
  | _ => True

instance (digits : Nat) : DecidablePred (Within digits)
  | nan => isTrue trivial
  | infinite _ => isTrue trivial
  | finite _ _ => inferInstanceAs (Decidable (_ ∧ _))

variable {digits : Nat} {x y : Decimal} {m : Magnitude}

theorem Within.mono {more : Nat} (h : x.Within digits) (hmore : digits ≤ more) : x.Within more := by
  cases x with
  | finite negative m => exact ⟨h.1.trans hmore, h.2⟩
  | _ => trivial

theorem within_of_isZero (negative : Bool) (h : m.isZero = true) :
    (finite negative m).Within digits := by
  refine ⟨?_, ?_⟩
  · rw [Magnitude.digitCount_of_isZero h]
    exact Nat.zero_le digits
  · rw [Magnitude.lead_of_isZero h]
    decide

theorem within_zero : zero.Within digits := within_of_isZero false rfl

theorem within_one (negative : Bool) (h : 0 < digits) : (finite negative .one).Within digits := by
  have hdigits : Magnitude.one.digitCount = 1 := by decide
  refine ⟨?_, by decide⟩
  rw [hdigits]
  exact h

/-- What is out of range is made infinite or zero. -/
theorem within_ofMagnitude (negative : Bool) (h : m.digitCount ≤ digits) :
    (ofMagnitude negative m).Within digits := by
  unfold ofMagnitude
  split
  · rename_i hzero
    exact within_of_isZero negative hzero
  · split
    · trivial
    · split
      · exact within_of_isZero negative rfl
      · rename_i hhigh hlow
        exact ⟨h, Int.not_lt.mp hlow, Int.not_lt.mp hhigh⟩

theorem Within.neg (h : x.Within digits) : x.neg.Within digits := by
  cases x with
  | finite negative m => exact h
  | _ => trivial

/-- A power where a side is zero, infinite or NaN is zero, one, infinite or NaN. -/
theorem within_specialPower (h : 0 < digits) (x y : Decimal) :
    (specialPower x y).Within digits := by
  unfold specialPower
  split
  · trivial
  · split
    · trivial
    · trivial
    · split
      · trivial
      · exact within_zero
  · simp only
    split
    · exact within_one false h
    · split
      · trivial
      · split
        · exact within_of_isZero _ rfl
        · trivial
      · split
        · trivial
        · exact within_of_isZero _ rfl

end Decimal

/-! ## Arithmetic -/

namespace Context

open Decimal (within_zero within_one within_of_isZero within_ofMagnitude within_specialPower)

variable {ctx : Context} (hpos : 0 < ctx.precision)
include hpos

theorem finish_within (negative : Bool) (m : Magnitude) :
    (ctx.finish negative m).Within ctx.precision :=
  within_ofMagnitude negative (m.digitCount_round_le ctx.rounding hpos)

theorem add_within (x y : Decimal) : (ctx.add x y).Within ctx.precision := by
  have hordered (p : Bool) (a : Magnitude) (q : Bool) (b : Magnitude) :
      (ctx.addOrdered p a q b).Within ctx.precision := by
    simp only [addOrdered]
    split
    · exact within_zero
    · exact finish_within hpos _ _
  unfold add
  split
  · trivial
  · trivial
  · split <;> trivial
  · trivial
  · trivial
  · unfold addFinite
    split
    · exact within_of_isZero _ rfl
    · exact finish_within hpos _ _
    · exact finish_within hpos _ _
    · split <;> exact hordered _ _ _ _

theorem sub_within (x y : Decimal) : (ctx.sub x y).Within ctx.precision := add_within hpos x y.neg

theorem mul_within (x y : Decimal) : (ctx.mul x y).Within ctx.precision := by
  unfold mul
  split
  · trivial
  · trivial
  · trivial
  · split <;> trivial
  · split <;> trivial
  · exact finish_within hpos _ _

theorem div_within (x y : Decimal) : (ctx.div x y).Within ctx.precision := by
  unfold div
  split
  · trivial
  · trivial
  · trivial
  · trivial
  · exact within_of_isZero _ rfl
  · split
    · trivial
    · exact within_of_isZero _ rfl
    · trivial
    · exact finish_within hpos _ _

theorem sqrt_within (x : Decimal) : (ctx.sqrt x).Within ctx.precision := by
  unfold sqrt
  split
  · trivial
  · split <;> trivial
  · split
    · rename_i hzero
      exact within_of_isZero _ hzero
    · split
      · trivial
      · exact finish_within hpos _ _

theorem sin_within {x value : Decimal} (h : ctx.sin x = .ok value) :
    value.Within ctx.precision := by
  cases x with
  | finite negative m =>
    simp only [sin] at h
    split at h
    · rename_i hzero
      cases h
      exact within_of_isZero _ hzero
    · split at h
      · cases h
      · cases h
        exact finish_within hpos _ _
  | _ =>
    cases h
    trivial

theorem powInteger_within (p : Bool) (a : Magnitude) (q : Bool) (n : Nat) :
    (ctx.powInteger p a q n).Within ctx.precision := by
  unfold powInteger
  split
  · exact div_within hpos _ _
  · exact finish_within hpos _ _

theorem powFinite_within {p q : Bool} {a b : Magnitude} {value : Decimal}
    (h : ctx.powFinite p a q b = some value) : value.Within ctx.precision := by
  unfold powFinite at h
  split at h
  · cases h
    exact within_one false hpos
  · split at h
    · cases h
      exact finish_within hpos _ _
    · split at h
      · cases h
        exact powInteger_within hpos _ _ _ _
      · split at h
        · cases h
          trivial
        · split at h
          · cases h
            exact within_one _ hpos
          · split at h
            · cases h
              trivial
            · cases h
              exact within_zero
            · split at h
              · cases h
                exact finish_within hpos _ _
              · cases h

theorem pow_within {x y value : Decimal} (h : ctx.pow x y = some value) :
    value.Within ctx.precision := by
  unfold pow at h
  split at h
  · split at h
    · cases h
      exact within_specialPower hpos _ _
    · exact powFinite_within hpos h
  · cases h
    exact within_specialPower hpos _ _

end Context

/-! ## Built-in functions -/

namespace Builtin

variable {ctx : Context} {digits : Nat}

theorem total_within (hpos : 0 < ctx.precision) (args : List Decimal) :
    (total ctx args).Within ctx.precision := by
  refine List.foldlRecOn args ctx.add Decimal.within_zero ?_
  intro sum _ x _
  exact Context.add_within hpos sum x

/-- A least or greatest argument is one of the arguments. -/
theorem extreme_mem (order : Ordering) (first : Decimal) (rest : List Decimal) :
    extreme order first rest ∈ first :: rest := by
  refine List.foldlRecOn rest _ List.mem_cons_self ?_
  intro best hbest x hx
  split
  · exact List.mem_cons_of_mem first hx
  · exact hbest

theorem apply_within (hpos : 0 < ctx.precision) {b : Builtin} {args : List Decimal} {pos : Int}
    {value : Decimal} (hargs : ∀ x ∈ args, x.Within ctx.precision)
    (h : (b.apply args pos ctx).1 = .ok value) : value.Within ctx.precision := by
  cases args with
  | nil =>
    cases b with
    | sum =>
      cases h
      exact total_within hpos []
    | _ => cases h
  | cons first rest =>
    cases b with
    | sum =>
      cases h
      exact total_within hpos (first :: rest)
    | avg =>
      cases h
      exact Context.div_within hpos _ _
    | min =>
      cases h
      exact hargs _ (extreme_mem .lt first rest)
    | max =>
      cases h
      exact hargs _ (extreme_mem .gt first rest)
    | sqrt =>
      cases h
      exact Context.sqrt_within hpos first
    | sin =>
      simp only [apply] at h
      split at h
      · rename_i sine hsine
        cases h
        exact Context.sin_within hpos hsine
      · cases h

end Builtin
end Reckoner
