import JsonTree.Failure
import JsonTree.Slot
import JsonTree.Value.Equality

/-!
# Arrays

The operations on the values of an array. Those that need an index in range come in two forms: one gives nothing
outside the range, the other, named `get` or `remove`, holds its caller to the range.
-/

namespace JsonTree.Elements

/-! ## Reading -/

def get? (vs : Elements) (i : Nat) : Option Value := vs[i]?

/-- Demands that an index is in range. -/
def require {α : Type} (vs : Elements) (i : Nat) (found : Option α) : Except Violation α :=
  match found with
  | some a => .ok a
  | none => .error (.indexOutOfRange i vs.length)

def get (vs : Elements) (i : Nat) : Except Violation Value := require vs i (get? vs i)

def containsBy (doubles : DoubleEquality) (vs : Elements) (v : Value) : Bool := vs.any fun w => w.sameBy doubles v

def contains : Elements → Value → Bool := containsBy .byKey

/-! ## Slots -/

/-- The place of the element at `i`. -/
def slot? (vs : Elements) (i : Nat) : Option (Slot Elements) := (get? vs i).map fun v => ⟨v, vs.set i⟩

def slot (vs : Elements) (i : Nat) : Except Violation (Slot Elements) := require vs i (slot? vs i)

/-! ## Writing -/

/-- Stores `v` at `i`. An index past the end makes the array longer, with nulls in between. -/
def store (vs : Elements) (i : Nat) (v : Value) : Elements :=
  if i < vs.length then vs.set i v else vs ++ List.replicate (i - vs.length) .null ++ [v]

def add (vs : Elements) (v : Value) : Elements := vs ++ [v]

def fill (vs : Elements) (v : Value) : Elements := vs.map fun _ => v

/-! ## Removing -/

/-- The last element, and the elements before it. -/
def removeLast? (vs : Elements) : Option (Value × Elements) := vs.getLast?.map fun v => (v, vs.dropLast)

def removeAt (vs : Elements) (i : Nat) : Except Violation (Value × Elements) :=
  (get vs i).map fun v => (v, vs.eraseIdx i)

/-- The greatest index that can be spoken of. -/
def greatestIndex : Nat := 0xFFFFFFFFFFFFFFFF

/-- Takes out the `n` elements from `i` on. They must all be there; if not, the last of them is reported. -/
def removeRange (vs : Elements) (i n : Nat) : Except Violation Elements :=
  if i + n ≤ vs.length then .ok (vs.take i ++ vs.drop (i + n))
  else .error (.indexOutOfRange (min (i + n) greatestIndex - 1) vs.length)

end JsonTree.Elements
