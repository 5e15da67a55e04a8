import JsonTree.Value.Plain

/-!
# Portable values

The model of values that other readers and writers of documents share. It has integers of 64 bits with or without
a sign, but no numbers that are not finite, and its strings never borrow.
-/

namespace JsonTree

/-- Integers that fit 64 bits, with or without a sign. -/
abbrev PortableInt := { n : Int // -0x8000000000000000 ≤ n ∧ n < 0x10000000000000000 }

/-- Doubles that are numbers. -/
abbrev PortableDouble := { d : Double // d.isFinite = true }

inductive Portable where
  | null
  | boolean (b : Bool)
  | integer (n : PortableInt)
  | float (d : PortableDouble)
  | string (s : String)
  | array (ps : List Portable)
  | object (ms : List (String × Portable))

theorem portable_of_int64 (n : Int64) : -0x8000000000000000 ≤ n.toInt ∧ n.toInt < 0x10000000000000000 := by
  have h := n.le_toInt
  have h' := n.toInt_lt
  omega

namespace Value

/-! ## To portable values -/

/-- A double as a portable value: `null` if it is not finite. -/
def portableDouble (d : Double) : Portable := if h : d.isFinite = true then .float ⟨d, h⟩ else .null

mutual

def toPortable : Value → Portable
  | .null => .null
  | .boolean b => .boolean b
  | .integer n => .integer ⟨n.toInt, portable_of_int64 n⟩
  | .double d => portableDouble d
  | .string t => .string t.content
  | .array vs => .array (elementsToPortable vs)
  | .object ms => .object (membersToPortable [] ms)

def elementsToPortable : List Value → List Portable
  | [] => []
  | v :: vs => v.toPortable :: elementsToPortable vs

def membersToPortable (es : Entries Portable) : List (String × Value) → Entries Portable
  | [] => es
  | (k, v) :: ms => membersToPortable (Entries.insert k v.toPortable es) ms

end

/-! ## From portable values -/

mutual

def ofPortable : Portable → Value
  | .null => .null
  | .boolean b => .boolean b
  | .integer n => ofInt n
  | .float d => .double d
  | .string s => .ofString s
  | .array ps => .array (elementsOfPortable ps)
  | .object ps => .object (membersOfPortable [] ps)

def elementsOfPortable : List Portable → List Value
  | [] => []
  | p :: ps => ofPortable p :: elementsOfPortable ps

def membersOfPortable (es : Entries Value) : List (String × Portable) → Entries Value
  | [] => es
  | (k, p) :: ps => membersOfPortable (Entries.insert k (ofPortable p) es) ps

end

end Value

end JsonTree
