import JsonTree.Document.Value

/-!
# Documents

A document is one value with layout around it. Reading a document gives its value, or the first fault in it.
-/

namespace JsonTree

namespace Document

/-- The value of a document in which numerals stand for what `value?` says. -/
def readBy (value? : Interpretation) (o : Options) (s : Bytes) : Except Fault Value := do
  let (v, s) ← (valueBy value? o o.depthLimit.toNat).read s
  let s ← layout s
  if s.isEmpty then return v else .error ⟨.dataAfterRoot, s⟩

/-- The value of a document. -/
def read (o : Options) (s : Bytes) : Except Fault Value := readBy .own o s

theorem read_eq (o : Options) (s : Bytes) : read o s = (do
    let (v, s) ← (value o o.depthLimit.toNat).read s
    let s ← layout s
    if s.isEmpty then return v else .error ⟨.dataAfterRoot, s⟩) := rfl

end Document

/-! ## Values of documents -/

/-- Reads a document in which numerals stand for what `value?` says. -/
def Value.parseBy (value? : Document.Interpretation) (o : Options) (document : Bytes) : Except ParseError Value :=
  (Document.readBy value? o document).mapError fun f => f.toError document

/-- Reads a document. -/
def Value.parse (o : Options) (document : Bytes) : Except ParseError Value :=
  (Document.read o document).mapError fun f => f.toError document

/-- Reads a document whose root is of the kind that `root?` accepts. -/
def parseRoot {α : Type} (o : Options) (expected : Kind) (root? : Value → Option α) (document : Bytes) :
    Except Failure α :=
  match Value.parse o document with
  | .error e => .error (.parse e)
  | .ok v =>
      match root? v with
      | some a => .ok a
      | none => .error (.unexpectedRoot expected v.kind)

/-- Reads a document whose root is an array. -/
def Elements.parse (o : Options) (document : Bytes) : Except Failure Elements :=
  parseRoot o .array Value.toElements? document

/-- Reads a document whose root is an object. -/
def Members.parse (o : Options) (document : Bytes) : Except Failure Members :=
  parseRoot o .object Value.toMembers? document

/-! ## Parsers -/

/-- A parser reads one document after the other and remembers what was wrong with the last one. -/
structure Parser where
  options : Options := {}
  error? : Option ParseError := none

/-- Reads the next document. -/
def Parser.parse (p : Parser) (document : Bytes) : Except ParseError Value × Parser :=
  let result := Value.parse p.options document
  (result, { p with error? := match result with | .ok _ => none | .error e => some e })

end JsonTree
