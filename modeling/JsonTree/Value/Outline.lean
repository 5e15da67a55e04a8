import JsonTree.Number.Style
import JsonTree.Text.Outline
import JsonTree.Text.Quoted
import JsonTree.Value.Basic

/-!
# The outline of a value

Reports show a value with the names of the kinds of its parts.
-/

namespace JsonTree

namespace Value

mutual

def outline : Value → Outline
  | .null => .line "Null"
  | .boolean b => .block "Boolean(" [("", .line (if b then "true" else "false"))] ")"
  | .integer n => .block "Integer(" [("", .line (toString n.toInt))] ")"
  | .double d => .block "Double(" [("", .line (String.ofList (DoubleStyle.report.text d)))] ")"
  | .string t => .block "String(" [("", .line (Quoted.report t.content))] ")"
  | .array vs => .block "Array([" (elementItems vs) "])"
  | .object ms => .block "Object(\x7b" (memberItems ms) "\x7d)"

def elementItems : List Value → List (String × Outline)
  | [] => []
  | v :: vs => ("", v.outline) :: elementItems vs

def memberItems : List (String × Value) → List (String × Outline)
  | [] => []
  | (k, v) :: ms => (Quoted.report k ++ ": ", v.outline) :: memberItems ms

end

end Value

/-- The outline of an array by itself. -/
def Elements.outline (vs : Elements) : Outline := .block "[" (Value.elementItems vs) "]"

/-- The outline of an object by itself. -/
def Members.outline (ms : Members) : Outline := .block "\x7b" (Value.memberItems ms) "\x7d"

end JsonTree
