import JsonTree.Value.Basic

/-!
# Storage of the strings in a value

Detaching a value gives all of its strings storage of their own, after which it may outlive the document that
it was read from. The keys of objects never borrow.
-/

namespace JsonTree.Value

mutual

/-- The same value with no borrowed strings. -/
def detach : Value → Value
  | .null => .null
  | .boolean b => .boolean b
  | .integer n => .integer n
  | .double d => .double d
  | .string t => .string t.detach
  | .array vs => .array (detachElements vs)
  | .object ms => .object (detachMembers ms)

def detachElements : List Value → List Value
  | [] => []
  | v :: vs => v.detach :: detachElements vs

def detachMembers : List (String × Value) → List (String × Value)
  | [] => []
  | (k, v) :: ms => (k, v.detach) :: detachMembers ms

end

mutual

/-- Where the strings of a value lie, from left to right. -/
def storages : Value → List Storage
  | .string t => [t.storage]
  | .array vs => storagesOfElements vs
  | .object ms => storagesOfMembers ms
  | _ => []

def storagesOfElements : List Value → List Storage
  | [] => []
  | v :: vs => v.storages ++ storagesOfElements vs

def storagesOfMembers : List (String × Value) → List Storage
  | [] => []
  | (_, v) :: ms => v.storages ++ storagesOfMembers ms

end

end JsonTree.Value
