import JsonTree.Number.Style
import JsonTree.Serializer
import JsonTree.Text.Quoted

/-!
# The text of a value

A value is written without blanks, the members of an object in the order of their keys. How numbers are written is
left to a writer of numbers. For other readers there is a serializer that writes documents.
-/

namespace JsonTree

/-- How numbers are written: integers of 64 bits, finite doubles, and the other ones. -/
structure NumberWriter where
  integer : Int64 → List Char
  finite : Double → List Char
  nonFinite : Double → List Char

def NumberWriter.double (w : NumberWriter) (d : Double) : List Char :=
  if d.isFinite then w.finite d else w.nonFinite d

/-- The writer that writes words for numbers that are not finite. -/
def NumberWriter.words (integer : Int64 → List Char) (finite : Double → List Char) : NumberWriter :=
  ⟨integer, finite, DoubleStyle.document.name⟩

namespace Value

/-- An integer in decimal. -/
def integerText (n : Int) : List Char := (if n < 0 then ['-'] else []) ++ Nat.toDigits 10 n.natAbs

mutual

/-- The text of a value. -/
def textIn (numbers : NumberWriter) : Value → List Char
  | .null => ['n', 'u', 'l', 'l']
  | .boolean b => if b then ['t', 'r', 'u', 'e'] else ['f', 'a', 'l', 's', 'e']
  | .integer n => numbers.integer n
  | .double d => numbers.double d
  | .string t => Quoted.literal t.content
  | .array vs => '[' :: (elementsTextIn numbers vs ++ [']'])
  | .object ms => '\x7b' :: (membersTextIn numbers ms ++ ['\x7d'])

/-- The text between the brackets of an array. -/
def elementsTextIn (numbers : NumberWriter) : List Value → List Char
  | [] => []
  | [v] => v.textIn numbers
  | v :: w :: vs => v.textIn numbers ++ ',' :: elementsTextIn numbers (w :: vs)

/-- The text between the braces of an object. -/
def membersTextIn (numbers : NumberWriter) : List (String × Value) → List Char
  | [] => []
  | [(k, v)] => Quoted.literal k ++ ':' :: v.textIn numbers
  | (k, v) :: m :: ms => Quoted.literal k ++ ':' :: (v.textIn numbers ++ ',' :: membersTextIn numbers (m :: ms))

end

variable (numbers : NumberWriter)

theorem elementsTextIn_eq_intercalate (vs : List Value) :
    elementsTextIn numbers vs = [','].intercalate (vs.map (textIn numbers)) := by
  induction vs with
  | nil => rfl
  | cons v vs ih =>
      cases vs with
      | nil => simp [elementsTextIn]
      | cons w vs =>
          rw [elementsTextIn, ih, List.map_cons, List.map_cons, List.map_cons, List.intercalate_cons_cons,
            List.append_assoc]
          rfl

/-- A member as it stands in the text of an object. -/
def memberTextIn (m : String × Value) : List Char := Quoted.literal m.1 ++ ':' :: m.2.textIn numbers

theorem membersTextIn_eq_intercalate (ms : List (String × Value)) :
    membersTextIn numbers ms = [','].intercalate (ms.map (memberTextIn numbers)) := by
  induction ms with
  | nil => rfl
  | cons m ms ih =>
      obtain ⟨k, v⟩ := m
      cases ms with
      | nil => simp [membersTextIn, memberTextIn]
      | cons m' ms =>
          rw [membersTextIn, ih, List.map_cons, List.map_cons, List.map_cons, List.intercalate_cons_cons]
          simp [memberTextIn]

end Value

/-- Integers in decimal, doubles with the digits of `shortest`, and words for those that are not finite. -/
def NumberWriter.document (shortest : Double → Decimal) : NumberWriter :=
  .words (fun n => Value.integerText n.toInt) (DoubleStyle.document.finite shortest)

def NumberWriter.usual : NumberWriter := .document (Shortest.decimal .even)

def Value.textWith (numbers : NumberWriter) (v : Value) : String := String.ofList (v.textIn numbers)

@[simp] theorem Value.toList_textWith (numbers : NumberWriter) (v : Value) :
    (v.textWith numbers).toList = v.textIn numbers := String.toList_ofList

/-- The text of a value. Numbers that are not finite are words. -/
def Value.text (v : Value) : String := v.textWith .usual

/-! ## Compact documents -/

/-- What has been written of an array or an object. One without items is written when it is opened. -/
inductive Brackets where
  | empty
  | first
  | rest
  deriving DecidableEq, Repr

namespace Compact

/-- A serializer that writes cannot fail. -/
abbrev Writer := EStateM Empty String

def write (t : List Char) : Writer Unit := modify (· ++ String.ofList t)

/-- The letter behind the backslash in the short escape of a character. -/
def shortEscape? (c : Char) : Option Char :=
  [('"', '"'), ('\\', '\\'), ('\x08', 'b'), ('\x0c', 'f'), ('\n', 'n'), ('\r', 'r'), ('\t', 't')].lookup c

/-- A character in a string: other control characters than those with short escapes are escaped by their numbers. -/
def escape (c : Char) : List Char :=
  match shortEscape? c with
  | some e => ['\\', e]
  | none =>
      if c < ' ' then '\\' :: 'u' :: (Nat.toDigits 16 (0x10000 + c.toNat)).drop 1 else [c]

def quoted (s : String) : List Char := ['"'] ++ s.toList.flatMap escape ++ ['"']

def opening (bracket close : Char) (length : Option Nat) : Writer Brackets := do
  write [bracket]
  if length = some 0 then
    write [close]
    return .empty
  else return .first

/-- A comma in front of all items but the first. -/
def separate (b : Brackets) : Writer Unit := if b = .first then pure () else write [',']

def closing (close : Char) (b : Brackets) : Writer Unit := if b = .empty then pure () else write [close]

/-- Writes values as documents without blanks. Doubles that are not finite become `null`. -/
def serializer : Serializer Writer Brackets Brackets Unit where
  unit := write ['n', 'u', 'l', 'l']
  boolean b := write (if b then ['t', 'r', 'u', 'e'] else ['f', 'a', 'l', 's', 'e'])
  integer n := write (Value.integerText n.toInt)
  double d := write (DoubleStyle.strict.text d)
  string s := write (quoted s)
  openArray := opening '[' ']'
  element b value := do
    separate b
    value
    return .rest
  closeArray := closing ']'
  openObject := opening '\x7b' '\x7d'
  entry b key value := do
    separate b
    write (quoted key)
    write [':']
    value
    return .rest
  closeObject := closing '\x7d'

end Compact

/-- The text of a value for other readers, as a serializer writes it. -/
def Value.strictText (v : Value) : String :=
  match (v.serialize Compact.serializer).run "" with
  | .ok _ text => text
  | .error e _ => nomatch e

end JsonTree
