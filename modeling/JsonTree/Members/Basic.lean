import JsonTree.Failure
import JsonTree.Slot

/-!
# Objects

The operations on the members of an object. Those that need a key come in two forms: one gives nothing if the key
is missing, the other, named `get` or `slot`, holds its caller to it.
-/

namespace JsonTree.Members

/-- Demands that a key, or a path of keys, is there. -/
def require {α : Type} (key : String) (found : Option α) : Except Violation α :=
  match found with
  | some a => .ok a
  | none => .error (.missingKey key)

def get (ms : Members) (k : String) : Except Violation Value := require k (Entries.get? k ms)

/-- The place of the value of a key. -/
def slot? (ms : Members) (k : String) : Option (Slot Members) :=
  (Entries.get? k ms).map fun v => ⟨v, fun w => Entries.insert k w ms⟩

def slot (ms : Members) (k : String) : Except Violation (Slot Members) := require k (slot? ms k)

/-- Gives a key a value; also gives the value that it had. -/
def store (ms : Members) (k : String) (v : Value) : Option Value × Members :=
  (Entries.get? k ms, Entries.insert k v ms)

/-- Takes a key out; also gives the value that it had. -/
def remove (ms : Members) (k : String) : Option Value × Members := (Entries.get? k ms, Entries.erase k ms)

/-- Makes the value of every key `v`. -/
def fill (ms : Members) (v : Value) : Members := ms.map fun m => (m.1, v)

end JsonTree.Members
