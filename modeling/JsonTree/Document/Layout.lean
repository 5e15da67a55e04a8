import JsonTree.Document.Fault

/-!
# Layout

Between any two tokens may stand blanks, comments from `//` to the end of the line, and comments from `/*` to the
first `*/`.
-/

namespace JsonTree.Document

open Byte

/-- Where in the layout a byte stands. -/
inductive Layout where
  | between
  | inLine
  | inBlock
  deriving DecidableEq, Repr

/-- The rest behind the layout. -/
def skipLayout : Layout → Bytes → Except Fault Bytes
  | .inBlock, [] => .error ⟨.malformed, []⟩
  | _, [] => .ok []
  | .between, b :: s =>
      if isBlank b then skipLayout .between s
      else if b = slash then
        match s with
        | [] => .error ⟨.malformed, [b]⟩
        | c :: s =>
            if c = slash then skipLayout .inLine s
            else if c = star then skipLayout .inBlock s
            else .error ⟨.malformed, b :: c :: s⟩
      else .ok (b :: s)
  | .inLine, b :: s => if b = lineFeed then skipLayout .between s else skipLayout .inLine s
  | .inBlock, b :: s =>
      if b = star then
        match s with
        | [] => .error ⟨.malformed, []⟩
        | c :: s => if c = slash then skipLayout .between s else skipLayout .inBlock (c :: s)
      else skipLayout .inBlock s

/-- The rest behind the layout that `s` starts with. -/
def layout (s : Bytes) : Except Fault Bytes := skipLayout .between s

theorem length_le_of_skipLayout {l : Layout} {s r : Bytes} (h : skipLayout l s = .ok r) :
    r.length ≤ s.length := by
  fun_induction skipLayout l s <;> simp_all <;> omega

theorem length_le_of_layout {s r : Bytes} (h : layout s = .ok r) : r.length ≤ s.length :=
  length_le_of_skipLayout h

end JsonTree.Document
