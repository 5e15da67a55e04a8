/-!
# Rounding quotients

Exact arithmetic on quotients of natural numbers: the nearest integer, and the binary and decimal places of
the leading digit.
-/

namespace JsonTree.Rounding

/-- The integer nearest to `num / den`; a tie goes to the even neighbour. -/
def nearest (num den : Nat) : Nat :=
  let q := num / den
  let twice := 2 * (num % den)
  if twice < den then q
  else if den < twice then q + 1
  else if q % 2 = 0 then q else q + 1

/-- The quotient `num / den` times `base` to the power `-e`, as a numerator and a denominator. -/
def rescale (base : Nat) (e : Int) (num den : Nat) : Nat × Nat :=
  if 0 ≤ e then (num, den * Nat.pow base e.toNat) else (num * Nat.pow base (-e).toNat, den)

/-- The binary place of the leading digit: `2 ^ e ≤ num / den < 2 ^ (e + 1)` for positive `num` and `den`. -/
def binaryPlace (num den : Nat) : Int :=
  let e : Int := Nat.log2 num - Nat.log2 den
  let (n, d) := rescale 2 e num den
  if n < d then e - 1 else e

/-- The number of decimal digits, at least one. -/
def digitCount (n : Nat) : Nat := if n < 10 then 1 else digitCount (n / 10) + 1

/-- The decimal place before the leading digit: `10 ^ (k - 1) ≤ num / den ≤ 10 ^ k` for positive `num` and
`den`, where the right-hand equality needs a power of ten below one. -/
def decimalPoint (num den : Nat) : Int :=
  if den ≤ num then digitCount (num / den) else 1 - digitCount (den / num)

end JsonTree.Rounding
