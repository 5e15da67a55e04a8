import JsonTree.Parser

/-!
# A scanner that leaves a trail

A scanner has one counter for the arrays and objects that are open. The counter goes up at an opening bracket, before
the limit is looked at, and goes down behind the closing one. On its way the scanner leaves a trail of what it met, in
the order of the document, and the trail stays there when the scan ends in a fault.
-/

namespace JsonTree.Trail

open Byte Document

variable {α β : Type}

/-- Options, with a limit on nesting or without one. -/
structure Rules where
  options : Options
  limit? : Option Int

namespace Rules

def ofOptions (o : Options) : Rules := ⟨o, some o.depthLimit⟩

def unlimited (o : Options) : Rules := ⟨o, none⟩

/-- Whether so many brackets are more than may be open. -/
def forbids (R : Rules) (depth : Int) : Bool := R.limit?.any (· < depth)

end Rules

/-! ## Trails -/

/-- What a scanner meets. A place is the rest of the document from there on. -/
inductive Event where
  /-- A value is looked for. -/
  | value (rest : Bytes)
  /-- A bracket opens, and the counter goes up to `depth`. -/
  | opens (rest : Bytes) (depth : Int)
  /-- A bracket has closed, and the counter goes down to `depth`. -/
  | closes (rest : Bytes) (depth : Int)
  /-- A key of the object that opens at `object`. -/
  | key (rest object : Bytes) (name : String)
  /-- A closing bracket has a comma in front of it. -/
  | trailing (rest : Bytes)

namespace Event

def rest : Event → Bytes
  | value rest | opens rest _ | closes rest _ | key rest _ _ | trailing rest => rest

/-- What the counter is set to. -/
def depth? : Event → Option Int
  | opens _ depth | closes _ depth => some depth
  | value _ | key _ _ _ | trailing _ => none

/-- A key, with the object that it is a key of. -/
def key? : Event → Option (Bytes × String)
  | key _ object name => some (object, name)
  | value _ | opens _ _ | closes _ _ | trailing _ => none

end Event

/-- What a scan gave, what the counter is then, and the trail. -/
structure Run (α : Type) where
  result : Except Fault (α × Bytes)
  depth : Int
  events : List Event

/-- Reads something off the head of some bytes, with the counter at some depth. -/
def Scan (α : Type) : Type := Bytes → Int → Run α

namespace Run

/-- Where the scan ended: behind what it read, or at the fault. -/
def stop (y : Run α) : Bytes :=
  match y.result with
  | .ok (_, r) => r
  | .error f => f.rest

/-- The run behind a trail. -/
def after (events : List Event) (y : Run α) : Run α := { y with events := events ++ y.events }

/-- Goes on where a scan has succeeded. -/
def andThen (y : Run α) (next : α → Scan β) : Run β :=
  match y.result with
  | .ok (a, r) => (next a r y.depth).after y.events
  | .error f => ⟨.error f, y.depth, y.events⟩

end Run

instance : Monad Scan where
  pure a := fun s d => ⟨.ok (a, s), d, []⟩
  bind S next := fun s d => (S s d).andThen next

/-! ## Steps -/

/-- Reads a token, which opens and closes nothing. -/
def token (read : Bytes → Except Fault (α × Bytes)) : Scan α := fun s d => ⟨read s, d, []⟩

/-- Reads a token for nothing but the rest behind it. -/
def skip (read : Bytes → Except Fault Bytes) : Scan Unit := token fun s => (read s).map fun r => ((), r)

def ahead : Scan Bytes := fun s d => ⟨.ok (s, s), d, []⟩

/-- Passes one byte. -/
def advance : Scan Unit := fun s d => ⟨.ok ((), s.tail), d, []⟩

def fail (f : Fault) : Scan α := fun _ d => ⟨.error f, d, []⟩

def mark (e : Event) : Scan Unit := fun s d => ⟨.ok ((), s), d, [e]⟩

/-- Passes an opening bracket. -/
def enter (R : Rules) : Scan Unit := fun s d =>
  ⟨if R.forbids (d + 1) then .error ⟨.tooMuchNesting, s⟩ else .ok ((), s.tail), d + 1, [.opens s (d + 1)]⟩

/-- Leaves a closing bracket behind. -/
def leave : Scan Unit := fun s d => ⟨.ok ((), s), d - 1, [.closes s (d - 1)]⟩

/-! ## Items -/

def afterItem (R : Rules) (close : UInt8) : Scan After := do
  skip layout
  match ← ahead with
  | [] => fail ⟨.malformed, []⟩
  | b :: r =>
      if b = close then do
        advance
        return .nothing
      else if b = comma then do
        advance
        skip layout
        match ← ahead with
        | [] => return .item
        | c :: r =>
            if c ≠ close then return .item
            else do
              mark (.trailing (c :: r))
              if R.options.contains .trailingCommas then do
                advance
                return .nothing
              else fail ⟨.trailingComma, c :: r⟩
      else fail ⟨.malformed, b :: r⟩

/-- Reads items. All of them take bytes, so the scanner has always moved when it goes on with the next one. -/
def items (R : Rules) (close : UInt8) (item : β → Scan β) (acc : β) (s : Bytes) (d : Int) : Run β :=
  (item acc s d).andThen fun acc r d => (afterItem R close r d).andThen fun a r d =>
    match a with
    | .nothing => ⟨.ok (acc, r), d, []⟩
    | .item => if r.length < s.length then items R close item acc r d else ⟨.error ⟨.malformed, r⟩, d, []⟩
termination_by s.length

/-- Reads items, if there are any, and the closing bracket. -/
def enclosed (R : Rules) (close : UInt8) (item : β → Scan β) (none : β) : Scan β := do
  skip layout
  match ← ahead with
  | [] => items R close item none
  | b :: _ =>
      if b = close then do
        advance
        return none
      else items R close item none

def bracketed (R : Rules) (close : UInt8) (item : β → Scan β) (none : β) : Scan β := do
  enter R
  let acc ← enclosed R close item none
  leave
  return acc

def element (value : Scan Value) (before : Elements) : Scan Elements := do
  let v ← value
  return v :: before

/-- Reads a key of the object that opens at `object`. -/
def key (R : Rules) (object : Bytes) (before : Members) : Scan String := do
  match ← ahead with
  | [] => fail ⟨.malformed, []⟩
  | b :: r =>
      if b ≠ quote then fail ⟨.unquotedKey, b :: r⟩
      else do
        advance
        let t ← token Literal.read
        if R.options.contains .uniqueKeys && Entries.contains t.content before then fail ⟨.malformed, b :: r⟩
        else do
          mark (.key (b :: r) object t.content)
          return t.content

def member (R : Rules) (object : Bytes) (value : Scan Value) (before : Members) : Scan Members := do
  let name ← key R object before
  skip skipColon
  let v ← value
  return Entries.insert name v before

/-! ## Values -/

def array (R : Rules) (value : Scan Value) : Scan Value := do
  let vs ← bracketed R closeBracket (element value) []
  return .array vs.reverse

def object (R : Rules) (value : Scan Value) : Scan Value := do
  let s ← ahead
  let ms ← bracketed R closeBrace (member R s value) []
  return .object ms

/-- Reads a value without brackets. -/
def scalar (o : Options) (s : Bytes) : Except Fault (Value × Bytes) :=
  match s with
  | [] => .error ⟨.malformed, []⟩
  | b :: r =>
      if b = quote then string o r
      else if startsNumber o b then number o s
      else if b = letterN then Word.value Word.null .null s
      else if b = letterT then Word.value Word.truth (.boolean true) s
      else if b = letterF then Word.value Word.falsity (.boolean false) s
      else .error ⟨.malformed, s⟩

/-- Reads a value that has no layout in front of it. -/
def node (R : Rules) (inner : Scan Value) : Scan Value := do
  let s ← ahead
  mark (.value s)
  if s.head? = some openBracket then array R inner
  else if s.head? = some openBrace then object R inner
  else token (scalar R.options)

def readValue (R : Rules) (inner : Scan Value) : Scan Value := do
  skip layout
  node R inner

/-- Reads a value. What stands between brackets is shorter than the whole. -/
def value (R : Rules) (s : Bytes) (d : Int) : Run Value :=
  readValue R (fun r d => if r.length < s.length then value R r d else ⟨.error ⟨.malformed, r⟩, d, []⟩) s d
termination_by s.length

/-! ## Documents -/

def document (R : Rules) : Scan Value := do
  let v ← value R
  skip layout
  match ← ahead with
  | [] => return v
  | b :: r => fail ⟨.dataAfterRoot, b :: r⟩

/-- The scan of a document, in front of which nothing is open. -/
def scan (R : Rules) (s : Bytes) : Run Value := document R s 0

def events (R : Rules) (s : Bytes) : List Event := (scan R s).events

/-- Reads a document. -/
def parse (R : Rules) (s : Bytes) : Except ParseError Value :=
  ((scan R s).result.map Prod.fst).mapError fun f => f.toError s

end JsonTree.Trail
