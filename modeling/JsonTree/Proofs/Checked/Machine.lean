import JsonTree.Parser

/-!
# A machine that checks each of its steps

A machine reads a document by an index into it and counts in machine integers. Whatever a machine integer cannot hold, a
byte that is not there, a slice out of bounds, an index behind the end and a loop that does not move on stop the machine
with a trap. A trap is not an error of the document: it is a step that the machine must never take. The memory that a
machine takes is not counted, nor are the calls inside one another.
-/

namespace JsonTree.Checked

open Byte

/-! ## Machine integers -/

abbrev u8 : IntType := ⟨false, 8⟩
abbrev u16 : IntType := ⟨false, 16⟩
abbrev u32 : IntType := ⟨false, 32⟩
abbrev i32 : IntType := ⟨true, 32⟩
abbrev i64 : IntType := ⟨true, 64⟩
abbrev usize : IntType := ⟨false, 64⟩
abbrev isize : IntType := ⟨true, 64⟩

/-! ## Stops -/

/-- A step that must never be taken. -/
inductive Trap where
  /-- A number that its type does not hold. -/
  | overflow (t : IntType)
  /-- A byte, or a slice, that the document does not have. -/
  | outOfBounds
  /-- The index has left the document. -/
  | pastEnd
  /-- A call that a contract rules out. -/
  | violation (v : Violation)
  /-- A loop went round, or a value was read, and the index is no greater. -/
  | stalled
  deriving DecidableEq, Repr

inductive Stop where
  /-- The document has an error. -/
  | error (e : ParseError)
  | trap (t : Trap)
  deriving DecidableEq, Repr

structure State where
  idx : Nat := 0
  lineStart : Nat := 0
  lineNumber : Nat := 1
  stackDepth : Int := 0

/-- A step of the machine, or several. -/
abbrev Act := StateT State (Except Stop)

variable {α β σ : Type}

def trap (t : Trap) : Act α := throw (.trap t)

/-! ## Arithmetic -/

/-- A number in the range of its type. -/
def fit (t : IntType) (n : Int) : Act Int := if t.contains n then pure n else trap (.overflow t)

/-- A number in the range of its type that counts something. -/
def fitNat (t : IntType) (n : Int) : Act Nat := do
  let n ← fit t n
  return n.toNat

/-! ## The document -/

/-- The byte at the index, if the document goes on there. -/
def peek (doc : Bytes) : Act (Option UInt8) := do
  let s ← get
  return doc[s.idx]?

/-- The byte so far behind the index. -/
def peekAt (doc : Bytes) (k : Nat) : Act (Option UInt8) := do
  let s ← get
  let i ← fitNat usize (s.idx + k)
  return doc[i]?

/-- The byte at a place that must be in the document. -/
def byteAt (doc : Bytes) (i : Nat) : Act UInt8 :=
  match doc[i]? with
  | some b => pure b
  | none => trap .outOfBounds

/-- The bytes from one place to another. -/
def slice (doc : Bytes) (start stop : Nat) : Act Bytes :=
  if start ≤ stop ∧ stop ≤ doc.length then pure ((doc.drop start).take (stop - start)) else trap .outOfBounds

def moveTo (doc : Bytes) (i : Nat) : Act Unit :=
  if i ≤ doc.length then modify fun s => { s with idx := i } else trap .pastEnd

/-- Moves the index on. -/
def advance (doc : Bytes) (k : Nat) : Act Unit := do
  let s ← get
  let i ← fitNat usize (s.idx + k)
  moveTo doc i

/-! ## Lines and errors -/

/-- The line starts at the index. -/
def newline : Act Unit := do
  let s ← get
  let n ← fitNat u32 (s.lineNumber + 1)
  set { s with lineNumber := n, lineStart := s.idx }

/-- An error so many bytes behind the index, or in front of it. A column that does not fit is the greatest one. -/
def report (code : ErrorCode) (adjust : Int) : Act α := do
  let s ← get
  let width ← fitNat usize (s.idx - s.lineStart)
  let column ← fit isize width
  let column ← fit isize (column + 1)
  let column ← fit isize (column + adjust)
  let column := max column 1
  throw (.error ⟨code, s.lineNumber, if u32.contains column then column.toNat else UInt32.size - 1⟩)

/-- An error at a place on the line. -/
def errorAt (code : ErrorCode) (place : Nat) : Act α := do
  let s ← get
  let place ← fit isize place
  let idx ← fit isize s.idx
  let adjust ← fit isize (place - idx)
  report code adjust

/-! ## Loops -/

/-- What comes behind a turn of a loop. -/
inductive Next (σ α : Type) where
  | again (acc : σ)
  | done (a : α)

/-- Goes round until a turn is the last one. Behind all others the index has to be greater than in front of them. -/
def loop (doc : Bytes) (turn : σ → Act (Next σ α)) (acc : σ) (s : State) : Except Stop (α × State) :=
  match turn acc s with
  | .error e => .error e
  | .ok (.done a, s') => .ok (a, s')
  | .ok (.again acc', s') =>
      if s.idx < s'.idx ∧ s'.idx ≤ doc.length then loop doc turn acc' s' else .error (.trap .stalled)
termination_by doc.length - s.idx

end JsonTree.Checked
