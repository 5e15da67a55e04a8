import JsonTree.Bytes

/-!
# UTF-16 code units

A code unit stands for a character by itself unless it is a surrogate. A lead surrogate and the trail
surrogate behind it stand for one character above U+FFFF.
-/

namespace JsonTree.Utf16

/-- A lead surrogate, the first half of a pair. -/
def isLead (unit : UInt16) : Bool := 0xD800 ≤ unit && unit ≤ 0xDBFF

/-- A trail surrogate, the second half of a pair. -/
def isTrail (unit : UInt16) : Bool := 0xDC00 ≤ unit && unit ≤ 0xDFFF

/-- The character that a unit stands for by itself; a surrogate stands for none. -/
def char? (unit : UInt16) : Option Char :=
  if isLead unit || isTrail unit then none else some (Char.ofNat unit.toNat)

/-- The character that a pair of surrogates stands for. -/
def pairChar (lead trail : UInt16) : Char :=
  Char.ofNat (0x10000 + (lead.toNat - 0xD800) * 0x400 + (trail.toNat - 0xDC00))

end JsonTree.Utf16
