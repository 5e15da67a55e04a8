import JsonTree.Text.Quoted
import JsonTree.Value.Kind

/-!
# Failures and violations

A failure is an answer about what was read: the document, its root or an option string does not fit. A
violation is a call that the operation's contract rules out. Both are causes; their texts are here and
nowhere else.
-/

namespace JsonTree

/-! ## Positions -/

/-- A place in a document. Lines and columns count from 1, columns in bytes. -/
structure Position where
  line : Nat := 1
  column : Nat := 1
  deriving DecidableEq, Repr

/-! ## Failures -/

/-- What is wrong with a document. -/
inductive ErrorCode where
  | malformed
  | dataAfterRoot
  | tooMuchNesting
  | trailingComma
  | unquotedKey
  | invalidEscape
  deriving DecidableEq, Repr

def ErrorCode.message : ErrorCode → String
  | .malformed => "syntax error"
  | .dataAfterRoot => "unexpected data after root value"
  | .tooMuchNesting => "too much nesting"
  | .trailingComma => "trailing comma"
  | .unquotedKey => "object key must be a quoted string"
  | .invalidEscape => "invalid escape sequence"

/-- What is wrong with a document, and where. -/
structure ParseError where
  code : ErrorCode
  position : Position
  deriving DecidableEq, Repr

def ParseError.message (e : ParseError) : String :=
  s!"{e.code.message}, line {e.position.line}, column {e.position.column}"

inductive Failure where
  /-- The document cannot be read under the options in force. -/
  | parse (error : ParseError)
  /-- The document can be read, but its root is of another kind than asked for. -/
  | unexpectedRoot (expected found : Kind)
  /-- A letter of an option string names no flag. -/
  | unknownFlag (letter : Char)
  deriving DecidableEq, Repr

namespace Failure

def message : Failure → String
  | .parse e => e.message
  | .unexpectedRoot expected found =>
      "expected " ++ expected.name ++ " as root value, found " ++ found.name
  | .unknownFlag c => "unrecognized option flag '" ++ c.toString ++ "'"

/-- The error that a failure passes on. -/
def source? : Failure → Option ParseError
  | .parse e => some e
  | .unexpectedRoot .. | .unknownFlag _ => none

end Failure

/-! ## Violations -/

inductive Violation where
  | indexOutOfRange (index size : Nat)
  | missingKey (key : String)
  | kindMismatch (expected found : Kind)
  | invalidOptions (flags : String) (cause : Failure)
  | extendOwned
  | extendPastEnd
  deriving DecidableEq, Repr

def Violation.message : Violation → String
  | .indexOutOfRange i n => "index " ++ toString i ++ " out of range for json array of size " ++ toString n
  | .missingKey k => "key " ++ Quoted.report k ++ " not found in json object"
  | .kindMismatch expected found =>
      "json value type mismatch: expected " ++ expected.name ++ ", found " ++ found.name
  | .invalidOptions flags cause => "invalid json options " ++ Quoted.report flags ++ ": " ++ cause.message
  | .extendOwned => "append_in_place on an owned string builder"
  | .extendPastEnd => "borrowed span runs past the end of the input"

end JsonTree
