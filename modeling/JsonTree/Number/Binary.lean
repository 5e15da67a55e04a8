import JsonTree.Number.Rounding

/-!
# Binary floating-point formats

A format is given by the widths of its two fields. The numbers of one sign are in the order of their bits
below the sign, here called the magnitude: zero, the subnormal and normal numbers, infinity, and the NaNs.
-/

namespace JsonTree

/-- An interchange format with a sign, an exponent field and a fraction field. -/
structure BinaryFormat where
  fractionBits : Nat
  exponentBits : Nat

namespace BinaryFormat

def single : BinaryFormat := ⟨23, 8⟩

def double : BinaryFormat := ⟨52, 11⟩

variable (f : BinaryFormat)

/-- The number of fractions, which is the least significand of a normal number. -/
def fractions : Nat := Nat.pow 2 f.fractionBits

def signBit : Nat := Nat.pow 2 (f.exponentBits + f.fractionBits)

/-- The exponent of the least positive number, which is a power of two. -/
def leastExponent : Int := 2 - (Nat.pow 2 (f.exponentBits - 1) : Nat) - f.fractionBits

def infinity : Nat := (Nat.pow 2 f.exponentBits - 1) * f.fractions

/-- The magnitude of the NaN that operations make. -/
def nan : Nat := f.infinity + f.fractions / 2

/-- A finite magnitude is `significand m * 2 ^ exponent m`. -/
def significand (m : Nat) : Nat :=
  let field := m / f.fractions
  if field = 0 then m else m % f.fractions + f.fractions

def exponent (m : Nat) : Int := f.leastExponent + (max 1 (m / f.fractions) - 1 : Nat)

/-- The value of a finite magnitude as a numerator and a denominator. -/
def ratio (m : Nat) : Nat × Nat := Rounding.rescale 2 (-f.exponent m) (f.significand m) 1

/-- The magnitude nearest to `num / den`; a tie goes to the even significand, and what is too large goes to
infinity. -/
def round (num den : Nat) : Nat :=
  if num = 0 then 0
  else
    let e := max f.leastExponent (Rounding.binaryPlace num den - f.fractionBits)
    let (n, d) := Rounding.rescale 2 e num den
    min f.infinity ((e - f.leastExponent).toNat * f.fractions + Rounding.nearest n d)

end BinaryFormat

end JsonTree
