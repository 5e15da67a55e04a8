/-!
# Bytes

A document is a list of bytes. This module names the bytes that the notation gives a meaning to and the
classes of bytes that its rules speak of.
-/

namespace JsonTree

/-- A run of bytes, read from its head. -/
abbrev Bytes := List UInt8

namespace Byte

abbrev backspace : UInt8 := 0x08
abbrev tab : UInt8 := 0x09
abbrev lineFeed : UInt8 := 0x0A
abbrev verticalTab : UInt8 := 0x0B
abbrev formFeed : UInt8 := 0x0C
abbrev carriageReturn : UInt8 := 0x0D
abbrev space : UInt8 := 0x20
abbrev quote : UInt8 := 0x22
abbrev star : UInt8 := 0x2A
abbrev plus : UInt8 := 0x2B
abbrev comma : UInt8 := 0x2C
abbrev minus : UInt8 := 0x2D
abbrev dot : UInt8 := 0x2E
abbrev slash : UInt8 := 0x2F
abbrev zero : UInt8 := 0x30
abbrev colon : UInt8 := 0x3A
abbrev capitalE : UInt8 := 0x45
abbrev capitalI : UInt8 := 0x49
abbrev capitalN : UInt8 := 0x4E
abbrev openBracket : UInt8 := 0x5B
abbrev backslash : UInt8 := 0x5C
abbrev closeBracket : UInt8 := 0x5D
abbrev letterB : UInt8 := 0x62
abbrev letterE : UInt8 := 0x65
abbrev letterF : UInt8 := 0x66
abbrev letterI : UInt8 := 0x69
abbrev letterN : UInt8 := 0x6E
abbrev letterR : UInt8 := 0x72
abbrev letterT : UInt8 := 0x74
abbrev letterU : UInt8 := 0x75
abbrev letterV : UInt8 := 0x76
abbrev letterX : UInt8 := 0x78
abbrev openBrace : UInt8 := 0x7B
abbrev closeBrace : UInt8 := 0x7D

/-! ## Classes -/

/-- Space, tab, carriage return and line feed. -/
def isBlank (b : UInt8) : Bool :=
  b == space || b == tab || b == carriageReturn || b == lineFeed

def isDigit (b : UInt8) : Bool := 0x30 ≤ b && b ≤ 0x39

def isLetter (b : UInt8) : Bool := (0x41 ≤ b && b ≤ 0x5A) || (0x61 ≤ b && b ≤ 0x7A)

/-- A byte that may not follow a number or a word: it would read as its continuation. -/
def continuesToken (b : UInt8) : Bool := isLetter b || isDigit b || b == dot

/-- A byte that stands for itself inside a string literal. -/
def isPlain (b : UInt8) : Bool := 0x20 ≤ b && b != quote && b != backslash

/-- The number that a decimal digit stands for. -/
def digitValue (b : UInt8) : Nat := b.toNat - 0x30

/-- The number that a hexadecimal digit of either case stands for. -/
def hexValue? (b : UInt8) : Option Nat :=
  if isDigit b then some (b.toNat - 0x30)
  else if 0x41 ≤ b && b ≤ 0x46 then some (b.toNat - 0x41 + 10)
  else if 0x61 ≤ b && b ≤ 0x66 then some (b.toNat - 0x61 + 10)
  else none

end Byte

end JsonTree
