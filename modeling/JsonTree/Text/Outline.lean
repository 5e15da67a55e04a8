/-!
# Outlines

An outline is text with a block structure. It is written flat, on one line, or tall, with each item of a block
on a line of its own.
-/

namespace JsonTree

inductive Outline where
  | line (text : String)
  /-- Labelled items between an opening and a closing text. -/
  | block (opening : String) (items : List (String × Outline)) (closing : String)

namespace Outline

/-! ## On one line -/

mutual

def flatChars : Outline → List Char
  | .line t => t.toList
  | .block opening items closing => opening.toList ++ (flatItems items ++ closing.toList)

def flatItems : List (String × Outline) → List Char
  | [] => []
  | [(label, o)] => label.toList ++ o.flatChars
  | (label, o) :: i :: is => label.toList ++ (o.flatChars ++ ',' :: ' ' :: flatItems (i :: is))

end

/-- An outline on one line, with commas between the items of a block. -/
def flat (o : Outline) : String := String.ofList o.flatChars

/-! ## On many lines -/

/-- The blanks in front of a line at depth `level`. -/
def indent (level : Nat) : List Char := List.replicate (4 * level) ' '

mutual

def tallChars (level : Nat) : Outline → List Char
  | .line t => t.toList
  | .block opening [] closing => opening.toList ++ closing.toList
  | .block opening (i :: is) closing =>
      opening.toList ++ ('\n' :: (tallItems (level + 1) (i :: is) ++ (indent level ++ closing.toList)))

def tallItems (level : Nat) : List (String × Outline) → List Char
  | [] => []
  | (label, o) :: is =>
      indent level ++ (label.toList ++ (o.tallChars level ++ (',' :: '\n' :: tallItems level is)))

end

/-- An outline with a comma behind each item of a block. -/
def tall (o : Outline) : String := String.ofList (o.tallChars 0)

end Outline

end JsonTree
