/-!
# Kinds of values
-/

namespace JsonTree

/-- The seven kinds of values. -/
inductive Kind where
  | null
  | boolean
  | integer
  | double
  | string
  | array
  | object
  deriving DecidableEq, Repr

/-- The name of a kind in messages. -/
def Kind.name : Kind → String
  | .null => "null"
  | .boolean => "boolean"
  | .integer => "integer"
  | .double => "double"
  | .string => "string"
  | .array => "array"
  | .object => "object"

end JsonTree
