import JsonTree.Failure
import JsonTree.Value.Basic

/-!
# Casts

Checked conversions of values to plain data give nothing where the kind or the range does not fit. The
unchecked ones, named `get`, are for callers who know the kind.
-/

namespace JsonTree

/-- A fixed-width integer type. -/
structure IntType where
  signed : Bool
  bits : Nat
  deriving DecidableEq, Repr

namespace IntType

def least (t : IntType) : Int := if t.signed then -(Nat.pow 2 (t.bits - 1) : Nat) else 0

def greatest (t : IntType) : Int := Nat.pow 2 (if t.signed then t.bits - 1 else t.bits) - 1

def contains (t : IntType) (n : Int) : Bool := t.least ≤ n && n ≤ t.greatest

end IntType

namespace Value

/-! ## Checked casts -/

/-- An integer in the range of `t`. -/
def toInt? (t : IntType) : Value → Option Int
  | .integer n => if t.contains n.toInt then some n.toInt else none
  | _ => none

/-- A number as the nearest double. -/
def toDouble? : Value → Option Double
  | .integer n => some (.ofInt n.toInt)
  | .double d => some d
  | _ => none

/-- A number as a single, rounded from the double that it casts to. -/
def toSingle? (v : Value) : Option Single := v.toDouble?.map Double.toSingle

def toBool? : Value → Option Bool
  | .boolean b => some b
  | _ => none

def toString? : Value → Option String
  | .string t => some t.content
  | _ => none

def toElements? : Value → Option Elements
  | .array vs => some vs
  | _ => none

def toMembers? : Value → Option Members
  | .object ms => some ms
  | _ => none

/-- The 64-bit integer that a number is equal to. -/
def toInteger? : Value → Option Int64
  | .integer n => some n
  | .double d =>
      d.toInt?.bind fun n => if (IntType.mk true 64).contains n then some (.ofInt n) else none
  | _ => none

/-! ## Unchecked casts -/

/-- The outcome of a cast that needs a value of kind `expected`. -/
def require {α : Type} (v : Value) (expected : Kind) (found : Option α) : Except Violation α :=
  match found with
  | some a => .ok a
  | none => .error (.kindMismatch expected v.kind)

def getBool (v : Value) : Except Violation Bool := v.require .boolean v.toBool?

def getInteger (v : Value) : Except Violation Int64 :=
  v.require .integer (match v with | .integer n => some n | _ => none)

def getDouble (v : Value) : Except Violation Double := v.require .double v.toDouble?

def getString (v : Value) : Except Violation String := v.require .string v.toString?

def getElements (v : Value) : Except Violation Elements := v.require .array v.toElements?

def getMembers (v : Value) : Except Violation Members := v.require .object v.toMembers?

end Value

end JsonTree
