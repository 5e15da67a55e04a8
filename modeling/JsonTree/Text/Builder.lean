import JsonTree.Failure
import JsonTree.Text.Basic
import JsonTree.Text.Utf8

/-!
# Text builders

A builder gathers the bytes of a text. It starts as a span of its input, which grows in place, and takes
storage of its own with the first byte that is not the next byte of the input. It never goes back.

The storage grows geometrically: a builder that has to grow asks for at least twice its length.
-/

namespace JsonTree

/-- Bytes in storage of their own, and how many the storage has room for. -/
structure ByteBuffer where
  bytes : Array UInt8
  capacity : Nat

namespace ByteBuffer

/-- The capacity asked for when `length` bytes are held and `wanted` have to fit. -/
def grown (length wanted : Nat) : Nat := max (max (2 * length) wanted) 8

/-- Storage for a copy of `s`, with room for four more bytes. -/
def copy (s : Bytes) : ByteBuffer := ⟨s.toArray, grown 0 (s.length + 4)⟩

/-- Adds bytes at the end and grows the storage if they do not fit. -/
def append : ByteBuffer → Bytes → ByteBuffer
  | ⟨bytes, capacity⟩, s =>
      let wanted := bytes.size + s.length
      let capacity := if capacity < wanted then grown bytes.size wanted else capacity
      ⟨bytes ++ s, capacity⟩

end ByteBuffer

inductive TextBuilder where
  /-- A span of the input, and the input behind it. -/
  | borrowed (span ahead : Bytes)
  | owned (buffer : ByteBuffer)

namespace TextBuilder

/-- The empty span in front of `ahead`. -/
def before (ahead : Bytes) : TextBuilder := .borrowed [] ahead

/-! ## What a builder holds -/

def isBorrowed : TextBuilder → Bool
  | .borrowed .. => true
  | .owned _ => false

def bytes : TextBuilder → Bytes
  | .borrowed span _ => span
  | .owned b => b.bytes.toList

def size (b : TextBuilder) : Nat := b.bytes.length

def isEmpty (b : TextBuilder) : Bool := b.size == 0

/-- The room of the builder's own storage; a span has none. -/
def capacity : TextBuilder → Nat
  | .borrowed .. => 0
  | .owned b => b.capacity

/-! ## Operations -/

/-- Lengthens a span by `n` bytes of the input, as far as there are any. -/
def extend (b : TextBuilder) (n : Nat) : TextBuilder :=
  match b with
  | .borrowed span ahead => .borrowed (span ++ ahead.take n) (ahead.drop n)
  | .owned b => .owned b

/-- Lengthens a span by `n` bytes of the input. The builder must be a span with `n` bytes behind it. -/
def extendInPlace (b : TextBuilder) (n : Nat) : Except Violation TextBuilder :=
  match b with
  | .borrowed _ ahead => if ahead.length < n then .error .extendPastEnd else .ok (b.extend n)
  | .owned _ => .error .extendOwned

/-- The bytes gathered so far in storage of their own. -/
def buffer : TextBuilder → ByteBuffer
  | .borrowed span _ => .copy span
  | .owned b => b

/-- Takes storage of its own, once. -/
def convert (b : TextBuilder) : TextBuilder := .owned b.buffer

def append (b : TextBuilder) (s : Bytes) : TextBuilder := .owned (b.buffer.append s)

def appendChar (b : TextBuilder) (c : Char) : TextBuilder := b.append (String.utf8EncodeChar c)

/-- Adds the next `run.length` bytes of the input, which are `run`: a span grows over them. -/
def appendRun (b : TextBuilder) (run : Bytes) : TextBuilder :=
  if b.isBorrowed then b.extend run.length else b.append run

/-- The text gathered. Bytes that are no text give the length of their longest well-formed start. -/
def finish (b : TextBuilder) : Except Nat Text :=
  (Utf8.decode b.bytes).map fun t => ⟨t, if b.isBorrowed then .borrowed else .owned⟩

end TextBuilder

end JsonTree
