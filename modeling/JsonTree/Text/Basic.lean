/-!
# Texts

A text knows whether it borrows the document it was read from or has storage of its own. Where its storage
lies is no part of what it says.
-/

namespace JsonTree

/-- Where the content of a text lies. -/
inductive Storage where
  /-- In the document that the text was read from. -/
  | borrowed
  /-- In storage of its own. -/
  | owned
  deriving DecidableEq, Repr

/-- A text and where it lies. -/
structure Text where
  content : String
  storage : Storage := .owned
  deriving DecidableEq, Repr

namespace Text

def detach (t : Text) : Text := { t with storage := .owned }

end Text

end JsonTree
