import JsonTree.Number.Double

/-!
# Decimal numbers
-/

namespace JsonTree

/-- The number `± coefficient * 10 ^ exponent`. The sign of a zero counts. -/
structure Decimal where
  negative : Bool
  coefficient : Nat
  exponent : Int
  deriving DecidableEq, Repr

namespace Decimal

/-- The absolute value as a numerator and a denominator. -/
def ratio (d : Decimal) : Nat × Nat := Rounding.rescale 10 (-d.exponent) d.coefficient 1

/-- The double nearest to a decimal number. -/
def toDouble (d : Decimal) : Double :=
  -- From 10 ^ 309 on everything is infinite, and below 10 ^ -324 everything is zero: no power is computed
  -- that a short text could make huge.
  let magnitude :=
    if d.coefficient = 0 then 0
    else if 309 ≤ d.exponent then BinaryFormat.double.infinity
    else if d.exponent + Nat.log2 d.coefficient + 1 ≤ -324 then 0
    else BinaryFormat.double.round d.ratio.1 d.ratio.2
  .ofParts d.negative magnitude

end Decimal

end JsonTree
