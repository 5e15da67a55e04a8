import JsonTree.Proofs.Checked.Machine

/-!
# A scanner that checks each of its steps

The scanner reads documents with the machine: one function for each kind of token, one loop for each kind of run, and
values inside one another by a recursion in which the index has to grow.
-/

namespace JsonTree.Checked

open Byte Document

variable {α β : Type}

/-! ## Builders -/

/-- A text that is gathered: a span of the document, or bytes in storage of their own. -/
inductive Builder where
  | borrowed (start length : Nat)
  | owned (buffer : ByteBuffer)

namespace Builder

/-- The empty span at a place of the document. -/
def new (doc : Bytes) (start : Nat) : Act Builder :=
  if start ≤ doc.length then pure (.borrowed start 0) else trap .outOfBounds

def isBorrowed : Builder → Bool
  | .borrowed .. => true
  | .owned _ => false

/-- The bytes of a span. -/
def span (doc : Bytes) (start length : Nat) : Act Bytes := do
  let stop ← fitNat usize (start + length)
  slice doc start stop

def extendInPlace (doc : Bytes) (n : Nat) : Builder → Act Builder
  | .borrowed start length => do
      let stop ← fitNat usize (start + length)
      let stop ← fitNat usize (stop + n)
      if stop ≤ doc.length then do
        let length ← fitNat usize (length + n)
        return .borrowed start length
      else trap (.violation .extendPastEnd)
  | .owned _ => trap (.violation .extendOwned)

/-- The capacity asked for when `length` bytes are held and `wanted` have to fit. -/
def grown (length wanted : Nat) : Act Nat := do
  let double ← fitNat usize (2 * length)
  fitNat isize (max (max double wanted) 8 : Nat)

/-- Storage for the bytes gathered so far. -/
def convert (doc : Bytes) : Builder → Act ByteBuffer
  | .borrowed start length => do
      let wanted ← fitNat usize (length + 4)
      let capacity ← grown 0 wanted
      let bytes ← span doc start length
      return ⟨bytes.toArray, capacity⟩
  | .owned buffer => pure buffer

/-- Adds bytes at the end. Storage that is too small grows first. -/
def append (doc : Bytes) (b : Builder) (s : Bytes) : Act Builder := do
  let buffer ← b.convert doc
  let wanted ← fitNat usize (buffer.bytes.size + s.length)
  if buffer.capacity < wanted then do
    let capacity ← grown buffer.bytes.size wanted
    let more ← fitNat usize (capacity - buffer.bytes.size)
    return .owned ⟨buffer.bytes ++ s, buffer.bytes.size + more⟩
  else return .owned ⟨buffer.bytes ++ s, buffer.capacity⟩

/-- The text gathered. Bytes that are no text give the length of their longest well-formed start. -/
def finish (doc : Bytes) : Builder → Act (Except Nat Text)
  | .borrowed start length => do
      let bytes ← span doc start length
      return (Utf8.decode bytes).map fun t => ⟨t, .borrowed⟩
  | .owned buffer => return (Utf8.decode buffer.bytes.toList).map fun t => ⟨t, .owned⟩

end Builder

section

variable (doc : Bytes)

/-! ## Runs -/

def skipTurn (p : UInt8 → Bool) : Unit → Act (Next Unit Unit) := fun _ => do
  match ← peek doc with
  | none => return .done ()
  | some b =>
      if p b then do
        advance doc 1
        return .again ()
      else return .done ()

/-- Moves on over the bytes that `p` accepts. -/
def skipWhile (p : UInt8 → Bool) : Act Unit := loop doc (skipTurn doc p) ()

/-! ## Layout -/

def blockTurn : Unit → Act (Next Unit Unit) := fun _ => do
  match ← peek doc with
  | none => report .malformed 0
  | some b =>
      if b = star then do
        if (← peekAt doc 1) = some slash then do
          advance doc 2
          return .done ()
        else do
          advance doc 1
          return .again ()
      else if b = lineFeed then do
        advance doc 1
        newline
        return .again ()
      else do
        advance doc 1
        return .again ()

def comment : Act Unit := do
  match ← peekAt doc 1 with
  | none => report .malformed 0
  | some b =>
      if b = slash then do
        advance doc 2
        skipWhile doc (· != lineFeed)
      else if b = star then do
        advance doc 2
        loop doc (blockTurn doc) ()
      else report .malformed 0

def layoutTurn : Unit → Act (Next Unit Unit) := fun _ => do
  match ← peek doc with
  | none => return .done ()
  | some b =>
      if b = lineFeed then do
        advance doc 1
        newline
        return .again ()
      else if isBlank b then do
        advance doc 1
        return .again ()
      else if b = slash then do
        comment doc
        return .again ()
      else return .done ()

def layout : Act Unit := loop doc (layoutTurn doc) ()

/-! ## String literals -/

/-- The number that digits of a code unit stand for, or the place of the byte that is no digit. -/
def hexNumber (n i : Nat) : Bytes → Act (Except Nat Nat)
  | [] => return .ok n
  | b :: s =>
      match hexValue? b with
      | none => return .error i
      | some d => do
          let n ← fitNat u16 (16 * n)
          let n ← fitNat u16 (n + d)
          hexNumber n (i + 1) s

def hex (count : Nat) : Act Nat := do
  let start := (← get).idx
  let stop ← fitNat usize (start + count)
  let stop := min stop doc.length
  match ← hexNumber 0 0 (← slice doc start stop) with
  | .error i => do
      let place ← fitNat usize (start + i)
      errorAt .invalidEscape place
  | .ok n => do
      let found ← fitNat usize (stop - start)
      if found < count then errorAt .invalidEscape stop
      else do
        moveTo doc stop
        return n

/-- The code point that two surrogates stand for. -/
def codePoint (lead trail : Nat) : Act Nat := do
  let high ← fitNat u16 (lead - 0xD800)
  let high ← fitNat u32 (high * 0x400)
  let low ← fitNat u16 (trail - 0xDC00)
  fitNat u32 ((high ||| low) + 0x10000 : Nat)

/-- The character of a code point; a surrogate is none. -/
def char? (n : Nat) : Option Char := if n.isValidChar then some (.ofNat n) else none

/-- The code point of a lead surrogate and the escape behind it. -/
def pair (start lead : Nat) : Act Nat := do
  let trailStart := (← get).idx
  if (← peek doc) = some backslash then do
    if (← peekAt doc 1) = some letterU then do
      advance doc 2
      let trail ← hex doc 4
      if Utf16.isTrail (.ofNat trail) then codePoint lead trail else errorAt .invalidEscape trailStart
    else errorAt .invalidEscape start
  else errorAt .invalidEscape start

/-- The character of an escape that starts at `start`, read behind its letter `u`. -/
def character (start : Nat) : Act Char := do
  let unit ← hex doc 4
  let code ← if Utf16.isLead (.ofNat unit) then pair doc start unit else pure unit
  match char? code with
  | some c => return c
  | none => errorAt .invalidEscape start

/-- The bytes of an escape. -/
def escape : Act Bytes := do
  let start := (← get).idx
  advance doc 1
  match ← peek doc with
  | none => report .invalidEscape 0
  | some letter =>
      if letter = letterU then do
        advance doc 1
        let c ← character doc start
        return String.utf8EncodeChar c
      else if letter = letterX then do
        advance doc 1
        let n ← hex doc 2
        return [.ofNat n]
      else
        match Literal.simple? letter with
        | some b => do
            advance doc 1
            return [b]
        | none => errorAt .invalidEscape start

/-- Hands the bytes from `start` to the index to a builder. -/
def flushRun (b : Builder) (start : Nat) : Act Builder := do
  let run ← slice doc start (← get).idx
  if run.isEmpty then return b
  else if Utf8.validLength run = run.length then do
    if b.isBorrowed then b.extendInPlace doc run.length else b.append doc run
  else do
    let place ← fitNat usize (start + Utf8.validLength run)
    errorAt .malformed place

/-- One byte, or one escape. A turn knows the builder and where the run of plain bytes starts. -/
def contentTurn : Builder × Nat → Act (Next (Builder × Nat) (Builder × Nat)) := fun (b, start) => do
  match ← peek doc with
  | none => report .malformed 0
  | some c =>
      if c = quote then return .done (b, start)
      else if c = backslash then do
        let b ← flushRun doc b start
        let buffer ← b.convert doc
        let bs ← escape doc
        let b ← (Builder.owned buffer).append doc bs
        return .again (b, (← get).idx)
      else if c < 0x20 then report .malformed 0
      else do
        advance doc 1
        return .again (b, start)

/-- Hands over the last run and takes the text. -/
def closing : Builder × Nat → Act Text := fun (b, start) => do
  let b ← flushRun doc b start
  match ← b.finish doc with
  | .error _ => report .invalidEscape 0
  | .ok t => do
      advance doc 1
      return t

def literal : Act Text := do
  advance doc 1
  let start := (← get).idx
  let b ← Builder.new doc start
  let content ← loop doc (contentTurn doc) (b, start)
  closing doc content

/-! ## Numbers and words -/

def delimiter : Act Unit := do
  match ← peek doc with
  | none => return ()
  | some b => if continuesToken b then report .malformed 0 else return ()

/-- Skips digits and counts them. -/
def digits : Act Nat := do
  let start := (← get).idx
  skipWhile doc isDigit
  fitNat usize ((← get).idx - start)

/-- Skips digits, of which there must be one. -/
def someDigits : Act Unit := do
  if (← digits doc) = 0 then report .malformed 0 else return ()

def whole : Act Unit := do
  match ← peek doc with
  | none => report .malformed 0
  | some b =>
      if b = zero then advance doc 1
      else if isDigit b then do
        let _ ← digits doc
      else report .malformed 0

/-- Skips a fraction, and tells whether there is none. -/
def fraction : Act Bool := do
  if (← peek doc) = some dot then do
    advance doc 1
    someDigits doc
    return false
  else return true

def exponentSign : Act Unit := do
  match ← peek doc with
  | none => return ()
  | some b => if b = plus ∨ b = minus then advance doc 1 else return ()

/-- Skips an exponent, and tells whether there is none. -/
def exponent : Act Bool := do
  match ← peek doc with
  | none => return true
  | some b =>
      if b = letterE ∨ b = capitalE then do
        advance doc 1
        exponentSign doc
        someDigits doc
        return false
      else return true

/-- The number that digits stand for, as long as 64 bits hold it. -/
def accumulate (n : Int) : Bytes → Act (Option Int)
  | [] => return some n
  | b :: s =>
      if i64.contains (n * 10) then do
        let d ← fitNat u8 (b.toNat - 0x30)
        if i64.contains (n * 10 + d) then accumulate (n * 10 + d) s else return none
      else return none

/-- The integer of 32 bits that a text stands for. -/
def nativeInteger (text : Bytes) : Act (Option Int) := do
  match ← accumulate 0 (minusSign text).2 with
  | none => return none
  | some n => do
      let n ← fit i64 (if (minusSign text).1 then -n else n)
      return if i32.contains n then some n else none

/-- The double that a text stands for. -/
def double? (text : Bytes) : Option Double :=
  match unsigned (minusSign text).1 (minusSign text).2 with
  | .ok (n, []) => some n.toDecimal.toDouble
  | _ => none

/-- The number of the numeral from `start` to the index. -/
def conversion (o : Options) (start : Nat) (plain : Bool) : Act Value := do
  let text ← slice doc start (← get).idx
  match ← (if plain then nativeInteger text else pure none) with
  | some n => return .integer (.ofInt n)
  | none =>
      match double? text with
      | none => errorAt .malformed start
      | some d => if d.isFinite || o.contains .nonFinite then return .double d else errorAt .malformed start

/-- A numeral that starts at `start`, read behind its sign. -/
def numeral (o : Options) (start : Nat) : Act Value := do
  whole doc
  let noFraction ← fraction doc
  let noExponent ← exponent doc
  delimiter doc
  conversion doc o start (noFraction && noExponent)

/-- The length of a word for a number, and the number. -/
def nonFinite? (negative : Bool) (rest : Bytes) : Option (Nat × Double) :=
  if !negative && Word.nan.isPrefixOf rest then some (Word.nan.length, .nan)
  else if Word.infinity.isPrefixOf rest then some (Word.infinity.length, .infinity negative)
  else if Word.inf.isPrefixOf rest then some (Word.inf.length, .infinity negative)
  else none

def nonFinite (o : Options) (negative : Bool) : Act (Option Value) := do
  if o.contains .nonFinite then do
    match nonFinite? negative (← slice doc (← get).idx doc.length) with
    | none => return none
    | some (length, d) => do
        advance doc length
        delimiter doc
        return some (.double d)
  else return none

def sign : Act Bool := do
  if (← byteAt doc (← get).idx) = minus then do
    advance doc 1
    return true
  else return false

def number (o : Options) : Act Value := do
  let start := (← get).idx
  let negative ← sign doc
  match ← nonFinite doc o negative with
  | some v => return v
  | none => numeral doc o start

/-- Reads a word byte by byte. -/
def word (v : Value) : Bytes → Act Value
  | [] => do
      delimiter doc
      return v
  | w :: ws => do
      if (← peek doc) = some w then do
        advance doc 1
        word v ws
      else report .malformed 0

/-! ## Items -/

/-- One bracket more is open. -/
def enter (o : Options) : Act Unit := do
  let s ← get
  let depth ← fit i32 (s.stackDepth + 1)
  set { s with stackDepth := depth }
  if o.depthLimit < depth then report .tooMuchNesting 0 else return ()

def leave : Act Unit := do
  let s ← get
  let depth ← fit i32 (s.stackDepth - 1)
  set { s with stackDepth := depth }

/-- Goes on behind an item, and tells whether another one comes. -/
def afterItem (o : Options) (close : UInt8) : Act After := do
  layout doc
  match ← peek doc with
  | none => report .malformed 0
  | some b =>
      if b = close then do
        advance doc 1
        return .nothing
      else if b = comma then do
        advance doc 1
        layout doc
        if (← peek doc) = some close then do
          if o.contains .trailingCommas then do
            advance doc 1
            return .nothing
          else report .trailingComma 0
        else return .item
      else report .malformed 0

def itemTurn (o : Options) (close : UInt8) (item : β → Act β) : β → Act (Next β β) := fun acc => do
  let acc ← item acc
  match ← afterItem doc o close with
  | .nothing => return .done acc
  | .item => return .again acc

def bracketed (o : Options) (close : UInt8) (item : β → Act β) (none : β) : Act β := do
  enter o
  advance doc 1
  layout doc
  if (← peek doc) = some close then do
    advance doc 1
    leave
    return none
  else do
    let acc ← loop doc (itemTurn doc o close item) none
    leave
    return acc

def element (value : Act Value) (before : Elements) : Act Elements := do
  let v ← value
  return v :: before

def colonBetween : Act Unit := do
  layout doc
  if (← peek doc) = some colon then advance doc 1 else report .malformed 0

def member (o : Options) (value : Act Value) (before : Members) : Act Members := do
  match ← peek doc with
  | none => report .malformed 0
  | some b =>
      if b = quote then do
        let start := (← get).idx
        let key ← literal doc
        if o.contains .uniqueKeys && Entries.contains key.content before then errorAt .malformed start
        else do
          colonBetween doc
          let v ← value
          return Entries.insert key.content v before
      else report .unquotedKey 0

/-! ## Values -/

def array (o : Options) (value : Act Value) : Act Value := do
  let vs ← bracketed doc o closeBracket (element value) []
  return .array vs.reverse

def object (o : Options) (value : Act Value) : Act Value := do
  let ms ← bracketed doc o closeBrace (member doc o value) []
  return .object ms

def string (o : Options) : Act Value := do
  let t ← literal doc
  return .string (stored o t)

def readValue (o : Options) (inner : Act Value) : Act Value := do
  layout doc
  match ← peek doc with
  | none => report .malformed 0
  | some b =>
      if b = openBracket then array doc o inner
      else if b = openBrace then object doc o inner
      else if b = quote then string doc o
      else if startsNumber o b then number doc o
      else if b = letterN then word doc .null Word.null
      else if b = letterT then word doc (.boolean true) Word.truth
      else if b = letterF then word doc (.boolean false) Word.falsity
      else report .malformed 0

/-- Reads a value. The values inside it start behind its start, and it ends behind it. -/
def value (o : Options) (s : State) : Except Stop (Value × State) :=
  let inner : Act Value := fun t =>
    if s.idx < t.idx ∧ t.idx ≤ doc.length then value o t else .error (.trap .stalled)
  match readValue doc o inner s with
  | .error e => .error e
  | .ok (v, s') => if s.idx < s'.idx then .ok (v, s') else .error (.trap .stalled)
termination_by doc.length - s.idx

def document (o : Options) : Act Value := do
  let v ← value doc o
  layout doc
  if (← get).idx < doc.length then report .dataAfterRoot 0 else return v

/-- Reads a document. -/
def parse (o : Options) : Except Stop Value := (document doc o).run' {}

end

end JsonTree.Checked
