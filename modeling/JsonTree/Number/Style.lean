import JsonTree.Number.Shortest

/-!
# Styles of writing doubles

All styles write the shortest digits that read back. They differ in where the exponent form begins, in the
sign of a positive exponent, and in the names of the numbers that are not finite.
-/

namespace JsonTree

/-- How doubles are written. -/
structure DoubleStyle where
  /-- The least and the greatest place of the leading digit that are written without an exponent. -/
  lowest : Int
  highest : Int
  /-- The sign of a positive exponent. -/
  positive : List Char
  tie : Tie
  nan : String
  infinity : String
  negativeInfinity : String

namespace DoubleStyle

/-- Without an exponent from 0.00001 to below 10 ^ 16. -/
def document : DoubleStyle := ⟨-5, 15, [], .even, "NaN", "Infinity", "-Infinity"⟩

/-- Documents that other readers accept: numbers that are not finite become `null`. -/
def strict : DoubleStyle := ⟨-5, 15, ['+'], .even, "null", "null", "null"⟩

def report : DoubleStyle := ⟨-4, 15, [], .up, "NaN", "inf", "-inf"⟩

/-- Digits, the first of them in the decimal place `place`, without an exponent. -/
def positional (digits : List Char) (place : Int) : List Char :=
  if place < 0 then ['0', '.'] ++ List.replicate (-place - 1).toNat '0' ++ digits
  else
    let whole := place.toNat + 1
    if digits.length ≤ whole then digits ++ List.replicate (whole - digits.length) '0' ++ ['.', '0']
    else digits.take whole ++ '.' :: digits.drop whole

/-- Digits with a point behind the first of them, times a power of ten. -/
def scientific (s : DoubleStyle) (digits : List Char) (place : Int) : List Char :=
  let mantissa := match digits with
    | c :: c' :: cs => c :: '.' :: c' :: cs
    | cs => cs
  mantissa ++ 'e' :: (if place < 0 then ['-'] else s.positive) ++ Nat.toDigits 10 place.natAbs

def decimal (s : DoubleStyle) (coefficient : Nat) (exponent : Int) : List Char :=
  let digits := Nat.toDigits 10 coefficient
  let place := exponent + (digits.length - 1 : Nat)
  if s.lowest ≤ place ∧ place ≤ s.highest then positional digits place else s.scientific digits place

/-- The text of a finite double. The digits are those of `shortest`. -/
def finite (s : DoubleStyle) (shortest : Double → Decimal) (d : Double) : List Char :=
  let sign := if d.isNegative then ['-'] else []
  if d.magnitude = 0 then sign ++ ['0', '.', '0']
  else
    let n := shortest d
    sign ++ s.decimal n.coefficient n.exponent

/-- The name of a double that is not finite. -/
def name (s : DoubleStyle) (d : Double) : List Char :=
  if d.isNaN then s.nan.toList
  else (if d.isNegative then s.negativeInfinity else s.infinity).toList

def text (s : DoubleStyle) (d : Double) : List Char :=
  if d.isFinite then s.finite (Shortest.decimal s.tie) d else s.name d

end DoubleStyle

end JsonTree
