import JsonTree.Value.Basic

/-!
# Serializers

A serializer takes a value in pieces: one call for each scalar, and for an array or an object a call that opens it, one
for each item and one that closes it. An item comes as the action that hands over its value. What becomes of the pieces
is up to the serializer.
-/

namespace JsonTree

/-- What takes values in pieces. The types `σ` and `τ` are those of open arrays and objects, and `α` is that of a piece
that has been taken. -/
structure Serializer (m : Type → Type) (σ τ α : Type) where
  unit : m α
  boolean : Bool → m α
  integer : Int64 → m α
  double : Double → m α
  string : String → m α
  /-- Opens an array of so many elements, if their number is known. -/
  openArray : Option Nat → m σ
  element : σ → m α → m σ
  closeArray : σ → m α
  openObject : Option Nat → m τ
  entry : τ → String → m α → m τ
  closeObject : τ → m α

namespace Value

variable {m : Type → Type} {σ τ α : Type} [Monad m]

mutual

/-- Hands a value to a serializer. -/
def serialize (z : Serializer m σ τ α) : Value → m α
  | .null => z.unit
  | .boolean b => z.boolean b
  | .integer n => z.integer n
  | .double d => z.double d
  | .string t => z.string t.content
  | .array vs => do
      let a ← z.openArray (some vs.length)
      let a ← serializeElements z a vs
      z.closeArray a
  | .object ms => do
      let a ← z.openObject (some ms.length)
      let a ← serializeMembers z a ms
      z.closeObject a

/-- Hands the elements of an array to a serializer, in order. -/
def serializeElements (z : Serializer m σ τ α) (a : σ) : List Value → m σ
  | [] => pure a
  | v :: vs => do
      let a ← z.element a (v.serialize z)
      serializeElements z a vs

/-- Hands the members of an object to a serializer, in the order of their keys. -/
def serializeMembers (z : Serializer m σ τ α) (a : τ) : List (String × Value) → m τ
  | [] => pure a
  | (k, v) :: ms => do
      let a ← z.entry a k (v.serialize z)
      serializeMembers z a ms

end

end Value

end JsonTree
