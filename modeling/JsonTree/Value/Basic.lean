import JsonTree.Entries
import JsonTree.Number.Double
import JsonTree.Text.Basic
import JsonTree.Value.Kind

/-!
# Values

A document denotes a tree of values. Integers and doubles are different kinds of numbers: the integer one is
not the double one. An object lists its members in the order of their keys.
-/

namespace JsonTree

inductive Value where
  | null
  | boolean (b : Bool)
  | integer (n : Int64)
  | double (d : Double)
  | string (t : Text)
  | array (vs : List Value)
  | object (ms : List (String × Value))

abbrev Elements := List Value

abbrev Members := Entries Value

namespace Value

instance : Inhabited Value := ⟨.null⟩

def ofString (s : String) : Value := .string ⟨s, .owned⟩

def kind : Value → Kind
  | .null => .null
  | .boolean _ => .boolean
  | .integer _ => .integer
  | .double _ => .double
  | .string _ => .string
  | .array _ => .array
  | .object _ => .object

def isNumber (v : Value) : Bool := v.kind == .integer || v.kind == .double

/-- A string that borrows the document it was read from. -/
def isBorrowed : Value → Bool
  | .string t => t.storage == .borrowed
  | _ => false

/-! ## Shape -/

mutual

/-- The members of every object in the tree are sorted by key. -/
def Canonical : Value → Prop
  | .array vs => CanonicalElements vs
  | .object ms => Entries.Sorted ms ∧ CanonicalMembers ms
  | _ => True

def CanonicalElements : List Value → Prop
  | [] => True
  | v :: vs => v.Canonical ∧ CanonicalElements vs

def CanonicalMembers : List (String × Value) → Prop
  | [] => True
  | (_, v) :: ms => v.Canonical ∧ CanonicalMembers ms

end

mutual

/-- How many arrays and objects stand inside one another. -/
def nesting : Value → Nat
  | .array vs => nestingElements vs + 1
  | .object ms => nestingMembers ms + 1
  | _ => 0

def nestingElements : List Value → Nat
  | [] => 0
  | v :: vs => max v.nesting (nestingElements vs)

def nestingMembers : List (String × Value) → Nat
  | [] => 0
  | (_, v) :: ms => max v.nesting (nestingMembers ms)

end

end Value

end JsonTree
