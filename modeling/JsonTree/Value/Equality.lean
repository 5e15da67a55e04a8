import JsonTree.Value.Basic

/-!
# Equality of values

Two values are equal if they have the same shape and the same leaves. Doubles count by the number they stand
for, strings by their content. Equal values feed the same words to a hash. How doubles are compared is a parameter.
-/

namespace JsonTree

/-- A word that a value feeds to a hash. -/
inductive HashWord where
  | kind (k : Kind)
  | boolean (b : Bool)
  | integer (n : Int64)
  | double (word : UInt64)
  | text (s : String)
  | length (n : Nat)
  deriving DecidableEq, Repr

/-- How doubles are compared, and the word that a double feeds to a hash. -/
structure DoubleEquality where
  same : Double → Double → Bool
  word : Double → UInt64

/-- Doubles by the keys of their numbers. -/
def DoubleEquality.byKey : DoubleEquality := ⟨fun d e => d.key == e.key, Double.key⟩

namespace Value

section

variable (doubles : DoubleEquality)

mutual

/-- Equality of values, with doubles compared one way. -/
def sameBy : Value → Value → Bool
  | .null, .null => true
  | .boolean b, .boolean b' => b == b'
  | .integer n, .integer n' => n == n'
  | .double d, .double d' => doubles.same d d'
  | .string t, .string t' => t.content == t'.content
  | .array vs, .array vs' => sameElements vs vs'
  | .object ms, .object ms' => sameMembers ms ms'
  | _, _ => false

def sameElements : List Value → List Value → Bool
  | [], [] => true
  | v :: vs, v' :: vs' => sameBy v v' && sameElements vs vs'
  | _, _ => false

def sameMembers : List (String × Value) → List (String × Value) → Bool
  | [], [] => true
  | (k, v) :: ms, (k', v') :: ms' => k == k' && sameBy v v' && sameMembers ms ms'
  | _, _ => false

end

mutual

/-- The words that a value feeds to a hash, in order. -/
def hashWordsBy : Value → List HashWord
  | .null => [.kind .null]
  | .boolean b => [.kind .boolean, .boolean b]
  | .integer n => [.kind .integer, .integer n]
  | .double d => [.kind .double, .double (doubles.word d)]
  | .string t => [.kind .string, .text t.content]
  | .array vs => .kind .array :: .length vs.length :: hashElements vs
  | .object ms => .kind .object :: .length ms.length :: hashMembers ms

def hashElements : List Value → List HashWord
  | [] => []
  | v :: vs => hashWordsBy v ++ hashElements vs

def hashMembers : List (String × Value) → List HashWord
  | [] => []
  | (k, v) :: ms => .text k :: (hashWordsBy v ++ hashMembers ms)

end

end

def same : Value → Value → Bool := sameBy .byKey

instance : BEq Value := ⟨same⟩

def hashWords : Value → List HashWord := hashWordsBy .byKey

end Value

end JsonTree
