import JsonTree.Text.Outline
import JsonTree.Text.Quoted

/-!
# Key paths

A path is a text of keys with dots between them. The dot cannot be escaped, so a path has one more segment than
it has dots, and an empty segment stands for the empty key.
-/

namespace JsonTree

/-- The keys that lead from an object to a value inside it. There is at least one. -/
structure Path where
  first : String
  rest : List String
  deriving DecidableEq, Repr

namespace Path

/-- The characters up to the first dot, and the runs of characters behind each dot. -/
def split : List Char → List Char × List (List Char)
  | [] => ([], [])
  | c :: cs =>
      let (run, runs) := split cs
      if c = '.' then ([], run :: runs) else (c :: run, runs)

/-- Reads a path. Every text is one. -/
def ofString (s : String) : Path :=
  let (run, runs) := split s.toList
  ⟨String.ofList run, runs.map String.ofList⟩

def segments (p : Path) : List String := p.first :: p.rest

/-- The key of the value itself. -/
def leaf (p : Path) : String := p.rest.getLastD p.first

/-- The keys of the objects that lead to the value. -/
def parents (p : Path) : List String := p.segments.dropLast

/-- The text of a path. -/
def text (p : Path) : String :=
  String.ofList (p.first.toList ++ p.rest.flatMap fun s => '.' :: s.toList)

/-- A path as reports show it. -/
def outline (p : Path) : Outline :=
  .block "KeyPath \x7b" [("segments: ", .block "[" (p.segments.map fun s => ("", .line (Quoted.report s))) "]")] "\x7d"

end Path

end JsonTree
