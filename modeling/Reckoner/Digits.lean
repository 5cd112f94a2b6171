import Reckoner.Text

/-!
Decimal digits of natural numbers, most significant first, and their text.
-/

namespace Reckoner

def pow2 (n : Nat) : Nat := Nat.pow 2 n

theorem pow2_zero : pow2 0 = 1 := rfl

theorem pow2_succ (n : Nat) : pow2 (n + 1) = pow2 n * 2 := rfl

def pow10 (n : Nat) : Nat := Nat.pow 10 n

theorem pow10_le_pow10 {m n : Nat} (h : m ≤ n) : pow10 m ≤ pow10 n :=
  Nat.pow_le_pow_right (by decide) h

theorem lt_of_pow10_lt {m n : Nat} (h : pow10 m < pow10 n) : m < n :=
  Nat.lt_of_not_le fun le => Nat.not_le_of_lt h (pow10_le_pow10 le)

theorem lt_pow10_log2 (n : Nat) : n < pow10 (n.log2 + 1) :=
  Nat.lt_of_lt_of_le Nat.lt_log2_self (Nat.pow_le_pow_left (by decide) _)

namespace Digits

/-- The last `k` digits of `n` in front of `tail`. -/
def lastOf : Nat → Nat → List Nat → List Nat
  | 0, _, tail => tail
  | k + 1, n, tail => lastOf k (n / 10) (n % 10 :: tail)

/-- The digits of `n` in front of `tail`, at most `k` of them. -/
def ofNatAux : Nat → Nat → List Nat → List Nat
  | 0, _, tail => tail
  | k + 1, n, tail => if n = 0 then tail else ofNatAux k (n / 10) (n % 10 :: tail)

/-- The digits of `n` in front of `tail`. While there are many, eighteen are split off at once,
which fit into a machine word. -/
def prepend (n : Nat) (tail : List Nat) : List Nat :=
  if _h : n < pow10 18 then ofNatAux 18 n tail
  else prepend (n / pow10 18) (lastOf 18 (n % pow10 18) tail)
termination_by n
decreasing_by
  exact Nat.div_lt_self (Nat.lt_of_lt_of_le (by decide) (Nat.le_of_not_lt _h))
    (by decide : 1 < pow10 18)

/-- Zero has no digits. -/
def ofNat (n : Nat) : List Nat := prepend n []

def value (digits : List Nat) : Nat := digits.foldl (fun n d => 10 * n + d) 0

/-- Goes up from `k` until `n` has no more than `k` digits. -/
def countFrom (n : Nat) : Nat → Nat → Nat
  | 0, k => k
  | fuel + 1, k => if n < pow10 k then k else countFrom n fuel (k + 1)

/-- The number of decimal digits, none for zero. A number with `b` bits behind the first one has
more than `b * 1233 / 4096` of them. -/
def count (n : Nat) : Nat :=
  let k := n.log2 * 1233 / 4096
  countFrom n (n.log2 + 1) (if pow10 k ≤ n then k else 0)

theorem lt_pow10_countFrom (n fuel k : Nat) (h : n < pow10 (k + fuel)) :
    n < pow10 (countFrom n fuel k) := by
  induction fuel generalizing k with
  | zero => exact h
  | succ fuel ih =>
    simp only [countFrom]
    split
    · assumption
    · exact ih (k + 1) (by rwa [Nat.add_assoc, Nat.add_comm 1])

theorem countFrom_le (n fuel k j : Nat) (h : n < pow10 j) (le : k ≤ j) :
    countFrom n fuel k ≤ j := by
  induction fuel generalizing k with
  | zero => exact le
  | succ fuel ih =>
    simp only [countFrom]
    split
    · exact le
    · next not => exact ih (k + 1) (Nat.lt_of_le_of_ne le fun eq => not (eq ▸ h))

theorem lt_pow10_count (n : Nat) : n < pow10 (count n) :=
  lt_pow10_countFrom _ _ _
    (Nat.lt_of_lt_of_le (lt_pow10_log2 n) (pow10_le_pow10 (Nat.le_add_left _ _)))

theorem count_le {n k : Nat} (h : n < pow10 k) : count n ≤ k := by
  refine countFrom_le _ _ _ _ h ?_
  split
  · next le => exact Nat.le_of_lt (lt_of_pow10_lt (Nat.lt_of_le_of_lt le h))
  · exact Nat.zero_le k

def unitOf (digit : Nat) : UInt16 := (48 + digit).toUInt16

def ofUnit (u : UInt16) : Nat := u.toNat - 48

/-- The digits as text, nothing for zero. -/
def text (n : Nat) : Text := (ofNat n).map unitOf

/-- The number written by a run of digit units. -/
def read (t : Text) : Nat := value (t.map ofUnit)

end Digits

namespace Text

def ofNat (n : Nat) : Text := if n = 0 then [unit '0'] else Digits.text n

def ofInt (n : Int) : Text := if n < 0 then unit '-' :: ofNat n.natAbs else ofNat n.natAbs

/-- A run of `n` zeros. -/
def zeros (n : Nat) : Text := List.replicate n (unit '0')

end Text
end Reckoner
