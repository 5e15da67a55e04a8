import JsonTree.Failure

/-!
# Options

Options are a set of flags and a limit on nesting. The flags have an option string: a letter for each flag in the
set, in a fixed order. Reading an option string accepts the letters in any order, repeated or not.
-/

namespace JsonTree

/-! ## Flags -/

/-- A switch. The first four change how documents are read; the others are carried for those who write them. -/
inductive Flag where
  /-- Accept words for numbers that are not finite, and numbers too large to be finite. -/
  | nonFinite
  /-- Accept a comma in front of a closing bracket. -/
  | trailingCommas
  /-- Let strings borrow the document. -/
  | borrowing
  /-- Reject an object with two members of the same key. -/
  | uniqueKeys
  | pretty
  | escapeNonAscii
  | lossless
  | integersForDoubles
  | stopAtError
  deriving DecidableEq, Repr

namespace Flag

/-- All flags, in the order of option strings. -/
def all : List Flag :=
  [.borrowing, .trailingCommas, .uniqueKeys, .nonFinite, .pretty, .escapeNonAscii, .lossless, .integersForDoubles,
    .stopAtError]

def letter : Flag → Char
  | .borrowing => 'R'
  | .trailingCommas => 'C'
  | .uniqueKeys => 'K'
  | .nonFinite => 'N'
  | .pretty => 'P'
  | .escapeNonAscii => 'U'
  | .lossless => 'L'
  | .integersForDoubles => 'I'
  | .stopAtError => 'E'

def ofLetter? (c : Char) : Option Flag := all.find? fun f => f.letter == c

/-- The place of a flag in the bits of a set. -/
def place : Flag → Nat
  | .nonFinite => 0
  | .trailingCommas => 1
  | .borrowing => 2
  | .uniqueKeys => 3
  | .pretty => 4
  | .escapeNonAscii => 5
  | .lossless => 6
  | .integersForDoubles => 7
  | .stopAtError => 8

def bit (f : Flag) : BitVec 9 := BitVec.twoPow 9 f.place

end Flag

/-! ## Options -/

structure Options where
  /-- A set of flags, a bit for each. -/
  flags : BitVec 9 := 0#9
  /-- How many arrays and objects may stand inside one another. A negative limit is like none at all allowed. -/
  depthLimit : Int := 100
  deriving DecidableEq, Repr

namespace Options

def contains (o : Options) (f : Flag) : Bool := o.flags.getLsbD f.place

def enable (o : Options) (f : Flag) : Options := { o with flags := o.flags ||| f.bit }

def disable (o : Options) (f : Flag) : Options := { o with flags := o.flags &&& ~~~f.bit }

def set (o : Options) (f : Flag) (on : Bool) : Options := if on then o.enable f else o.disable f

def withDepthLimit (o : Options) (limit : Int) : Options := { o with depthLimit := limit }

def bits (o : Options) : Nat := o.flags.toNat

/-! ## Option strings -/

/-- Turns on the flags that the letters name, up to the first letter that names none. -/
def enableLetters (o : Options) : List Char → Except Failure Options
  | [] => .ok o
  | c :: cs =>
      match Flag.ofLetter? c with
      | some f => (o.enable f).enableLetters cs
      | none => .error (.unknownFlag c)

def ofString (s : String) : Except Failure Options := enableLetters {} s.toList

/-- Reads an option string that the caller vouches for. -/
def ofTrustedString (s : String) : Except Violation Options :=
  match ofString s with
  | .ok o => .ok o
  | .error e => .error (.invalidOptions s e)

def letters (o : Options) : String := String.ofList ((Flag.all.filter o.contains).map Flag.letter)

end Options

end JsonTree
