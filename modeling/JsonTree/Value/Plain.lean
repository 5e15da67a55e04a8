import JsonTree.Value.Cast

/-!
# Values of plain data
-/

namespace JsonTree.Value

/-- An integer as a value: the nearest double if it does not fit 64 bits with a sign. -/
def ofInt (n : Int) : Value :=
  if (IntType.mk true 64).contains n then .integer (.ofInt n) else .double (.ofInt n)

def ofSingle (s : Single) : Value := .double (.ofSingle s)

/-- A text that borrows from its owner. -/
def borrowing (s : String) : Value := .string ⟨s, .borrowed⟩

/-- What is absent is `null`. -/
def ofOption (v : Option Value) : Value := v.getD .null

/-- An object of pairs: of several values for a key the last counts. -/
def ofPairs (ps : List (String × Value)) : Value := .object (Entries.ofList ps)

end JsonTree.Value
