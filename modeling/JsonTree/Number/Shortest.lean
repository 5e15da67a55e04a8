import JsonTree.Number.Decimal

/-!
# Shortest decimal numbers

A double is written with the fewest digits that read back. Of the decimal numbers with a given last place only
the two neighbours of the double can be nearest to it, so two candidates are tried for each number of digits.
-/

namespace JsonTree

/-- Which of two equally near candidates is taken. -/
inductive Tie where
  | even
  | up
  deriving DecidableEq, Repr

namespace Shortest

/-- Whether the decimal number reads back as the magnitude of `d`. -/
def readsBack (d : Double) (coefficient : Nat) (exponent : Int) : Bool :=
  Decimal.toDouble ⟨false, coefficient, exponent⟩ == .ofParts false d.magnitude

/-- Of the two multiples of `10 ^ exponent` around `d`, the nearer one that reads back. -/
def onGrid? (tie : Tie) (d : Double) (exponent : Int) : Option Nat :=
  let (num, den) := Rounding.rescale 10 exponent d.ratio.1 d.ratio.2
  let below := num / den
  let twice := 2 * (num % den)
  match readsBack d below exponent, readsBack d (below + 1) exponent with
  | true, true =>
      if twice < den then some below
      else if den < twice then some (below + 1)
      else if tie = .even ∧ below % 2 = 0 then some below
      else some (below + 1)
  | true, false => some below
  | false, true => some (below + 1)
  | false, false => none

/-- All digits of `d`. -/
def exact (d : Double) : Nat × Int :=
  let places := Nat.log2 d.ratio.2
  (d.ratio.1 * Nat.pow 5 places, -places)

/-- The same number with no zero at the end of its coefficient. -/
def dropZeros (coefficient : Nat) (exponent : Int) : Nat × Int :=
  if h : coefficient % 10 = 0 ∧ 0 < coefficient then dropZeros (coefficient / 10) (exponent + 1)
  else (coefficient, exponent)
termination_by coefficient
decreasing_by omega

/-- The decimal number that a positive finite double is written as. Seventeen digits are always enough. -/
def decimal (tie : Tie) (d : Double) : Decimal :=
  let k := Rounding.decimalPoint d.ratio.1 d.ratio.2
  let found := (List.range 17).findSome? fun n =>
    (onGrid? tie d (k - (n + 1 : Nat))).map fun c => (c, k - (n + 1 : Nat))
  let (c, e) := found.getD (exact d)
  let (c, e) := dropZeros c e
  ⟨d.isNegative, c, e⟩

end Shortest

end JsonTree
