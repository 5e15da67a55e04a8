import JsonTree.Number.Binary

/-!
# Doubles and singles

A double is its 64 bits. Arithmetic on its value is exact; the only inexact step is `BinaryFormat.round`.
-/

namespace JsonTree

/-- A double-precision number, an infinity or a NaN. -/
structure Double where
  bits : UInt64
  deriving DecidableEq, Repr

/-- A single-precision number, an infinity or a NaN. -/
structure Single where
  bits : UInt32
  deriving DecidableEq, Repr

namespace Double

/-! ## Parts -/

def ofParts (negative : Bool) (magnitude : Nat) : Double :=
  ⟨.ofNat ((if negative then BinaryFormat.double.signBit else 0) + magnitude)⟩

def isNegative (d : Double) : Bool := BinaryFormat.double.signBit ≤ d.bits.toNat

/-- The bits below the sign. -/
def magnitude (d : Double) : Nat := d.bits.toNat % BinaryFormat.double.signBit

def isNaN (d : Double) : Bool := BinaryFormat.double.infinity < d.magnitude

def isInfinite (d : Double) : Bool := d.magnitude == BinaryFormat.double.infinity

def isFinite (d : Double) : Bool := d.magnitude < BinaryFormat.double.infinity

def nan : Double := .ofParts false BinaryFormat.double.nan

def infinity (negative : Bool) : Double := .ofParts negative BinaryFormat.double.infinity

/-- The absolute value of a finite double as a numerator and a denominator. -/
def ratio (d : Double) : Nat × Nat := BinaryFormat.double.ratio d.magnitude

/-! ## Order of values -/

/-- Bits that two doubles share exactly if they count as the same number: the NaNs are one number, and so are
the zeros. -/
def key (d : Double) : UInt64 :=
  if d.isNaN then nan.bits else if d.magnitude = 0 then 0 else d.bits

/-! ## Integers -/

def ofInt (n : Int) : Double := .ofParts (n < 0) (BinaryFormat.double.round n.natAbs 1)

/-- The integer that a double is equal to. -/
def toInt? (d : Double) : Option Int :=
  let (num, den) := d.ratio
  if d.isFinite && num % den == 0 then
    some (if d.isNegative then -(num / den : Nat) else (num / den : Nat))
  else none

/-! ## Singles -/

def toSingle (d : Double) : Single :=
  let f := BinaryFormat.single
  let m :=
    if d.isNaN then f.nan
    else if d.isInfinite then f.infinity
    else f.round d.ratio.1 d.ratio.2
  ⟨.ofNat ((if d.isNegative then f.signBit else 0) + m)⟩

def ofSingle (s : Single) : Double :=
  let f := BinaryFormat.single
  let m := s.bits.toNat % f.signBit
  let g := BinaryFormat.double
  .ofParts (f.signBit ≤ s.bits.toNat)
    (if f.infinity < m then g.nan
    else if m = f.infinity then g.infinity
    else g.round (f.ratio m).1 (f.ratio m).2)

end Double

namespace Single

def isNaN (s : Single) : Bool :=
  BinaryFormat.single.infinity < s.bits.toNat % BinaryFormat.single.signBit

end Single

end JsonTree
