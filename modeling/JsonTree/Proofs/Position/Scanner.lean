import JsonTree.Parser

/-!
# A reader that counts lines

A scanner goes through a document once and has no offsets to look lines up by. It keeps the number of the line and
where the line starts, and changes them only where layout has a line feed. Errors are reported on the line where the
scanner stands, in 32 bits: a column that does not fit is the greatest one.
-/

namespace JsonTree.Scanner

open Byte Document

/-- Where a scanner stands. -/
structure Cursor where
  line : UInt32
  /-- The rest of the document from the start of the line on. -/
  lineRest : Bytes
  rest : Bytes

namespace Cursor

def start (document : Bytes) : Cursor := ⟨1, document, document⟩

/-- Another place on the same line. -/
def goto (c : Cursor) (r : Bytes) : Cursor := { c with rest := r }

/-- The start of the next line. -/
def newLine (c : Cursor) (r : Bytes) : Cursor := ⟨c.line + 1, r, r⟩

/-- An error at a place on the line. -/
def error (c : Cursor) (code : ErrorCode) (r : Bytes) : ParseError :=
  ⟨code, c.line.toNat, min (c.lineRest.length - r.length + 1) (UInt32.size - 1)⟩

end Cursor

/-- Reads something where the scanner stands. -/
abbrev Scan (α : Type) := Cursor → Except ParseError (α × Cursor)

/-- Reads a token, which stays on the line. -/
def token {α : Type} (read : Bytes → Except Fault (α × Bytes)) : Scan α := fun c =>
  match read c.rest with
  | .ok (a, r) => .ok (a, c.goto r)
  | .error f => .error (c.error f.code f.rest)

/-- Skips layout from `s` on, and counts its line feeds. -/
def skipLayout : Layout → Cursor → Bytes → Except ParseError Cursor
  | .inBlock, c, [] => .error (c.error .malformed [])
  | _, c, [] => .ok (c.goto [])
  | .between, c, b :: s =>
      if b = lineFeed then skipLayout .between (c.newLine s) s
      else if isBlank b then skipLayout .between c s
      else if b = slash then
        match s with
        | [] => .error (c.error .malformed [b])
        | b' :: s =>
            if b' = slash then skipLayout .inLine c s
            else if b' = star then skipLayout .inBlock c s
            else .error (c.error .malformed (b :: b' :: s))
      else .ok (c.goto (b :: s))
  | .inLine, c, b :: s => if b = lineFeed then skipLayout .between (c.newLine s) s else skipLayout .inLine c s
  | .inBlock, c, b :: s =>
      if b = star then
        match s with
        | [] => .error (c.error .malformed [])
        | b' :: s => if b' = slash then skipLayout .between c s else skipLayout .inBlock c (b' :: s)
      else if b = lineFeed then skipLayout .inBlock (c.newLine s) s
      else skipLayout .inBlock c s

def layout (c : Cursor) : Except ParseError Cursor := skipLayout .between c c.rest

/-! ## Items -/

def afterItem (o : Options) (close : UInt8) : Scan After := fun c => do
  let c ← layout c
  match c.rest with
  | [] => .error (c.error .malformed [])
  | b :: r =>
      if b = close then return (.nothing, c.goto r)
      else if b = comma then
        let c ← layout (c.goto r)
        match c.rest with
        | [] => return (.item, c)
        | b :: r =>
            if b ≠ close then return (.item, c)
            else if o.contains .trailingCommas then return (.nothing, c.goto r)
            else .error (c.error .trailingComma (b :: r))
      else .error (c.error .malformed (b :: r))

/-- Reads items. All of them take bytes, so the scanner has always moved when it goes on with the next one. -/
def items {β : Type} (o : Options) (close : UInt8) (item : β → Scan β) (acc : β) (c : Cursor) :
    Except ParseError (β × Cursor) :=
  match item acc c with
  | .error e => .error e
  | .ok (acc', c') =>
      match afterItem o close c' with
      | .error e => .error e
      | .ok (.nothing, c'') => .ok (acc', c'')
      | .ok (.item, c'') =>
          if c''.rest.length < c.rest.length then items o close item acc' c'' else .error (c.error .malformed c.rest)
termination_by c.rest.length

def bracketed {β : Type} (o : Options) (close : UInt8) (item : β → Scan β) (none : β) : Scan β := fun c => do
  let c ← layout c
  match c.rest with
  | [] => items o close item none c
  | b :: r => if b = close then return (none, c.goto r) else items o close item none c

def element (value : Scan Value) (before : Elements) : Scan Elements := fun c => do
  let (v, c) ← value c
  return (v :: before, c)

def skipColon (c : Cursor) : Except ParseError Cursor := do
  let c ← layout c
  match c.rest with
  | [] => .error (c.error .malformed [])
  | b :: r => if b = colon then return c.goto r else .error (c.error .malformed (b :: r))

/-- Reads a member. A key that is there twice is reported where it starts. -/
def member (o : Options) (value : Scan Value) (before : Members) : Scan Members := fun c =>
  match c.rest with
  | [] => .error (c.error .malformed [])
  | b :: r =>
      if b ≠ quote then .error (c.error .unquotedKey (b :: r))
      else do
        let (key, c) ← token Literal.read (c.goto r)
        if o.contains .uniqueKeys && Entries.contains key.content before then
          .error (c.error .malformed (b :: r))
        else
          let c ← skipColon c
          let (v, c) ← value c
          return (Entries.insert key.content v before, c)

/-! ## Values -/

def array (o : Options) (value : Scan Value) : Scan Value := fun c => do
  let (vs, c) ← bracketed o closeBracket (element value) [] c
  return (.array vs.reverse, c)

def object (o : Options) (value : Scan Value) : Scan Value := fun c => do
  let (ms, c) ← bracketed o closeBrace (member o value) [] c
  return (.object ms, c)

def readValue (o : Options) (inner : Option (Scan Value)) : Scan Value := fun c => do
  let c ← layout c
  match c.rest with
  | [] => .error (c.error .malformed [])
  | b :: r =>
      if b = openBracket then
        match inner with
        | some value => array o value (c.goto r)
        | none => .error (c.error .tooMuchNesting (b :: r))
      else if b = openBrace then
        match inner with
        | some value => object o value (c.goto r)
        | none => .error (c.error .tooMuchNesting (b :: r))
      else if b = quote then token (string o) (c.goto r)
      else if startsNumber o b then token (number o) c
      else if b = letterN then token (Word.value Word.null .null) c
      else if b = letterT then token (Word.value Word.truth (.boolean true)) c
      else if b = letterF then token (Word.value Word.falsity (.boolean false)) c
      else .error (c.error .malformed (b :: r))

def value (o : Options) : Nat → Scan Value
  | 0 => readValue o none
  | room + 1 => readValue o (some (value o room))

/-- Reads a document, with the lines counted. -/
def parse (o : Options) (document : Bytes) : Except ParseError Value := do
  let (v, c) ← value o o.depthLimit.toNat (.start document)
  let c ← layout c
  if c.rest.isEmpty then return v else .error (c.error .dataAfterRoot c.rest)

end JsonTree.Scanner
