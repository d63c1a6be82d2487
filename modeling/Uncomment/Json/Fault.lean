import Uncomment.Bytes

/-! Faults of JSON texts, their wording and their positions. -/
namespace Uncomment

/-- What is wrong with a JSON text. -/
inductive JsonProblem where
  | endInList
  | endInObject
  | endInString
  | endInValue
  | expectedColon
  | expectedListEnd
  | expectedObjectEnd
  | expectedWord
  | expectedValue
  | invalidEscape
  | invalidNumber
  | numberOutOfRange
  | controlCharacter
  | keyNotString
  | loneSurrogate
  | trailingComma
  | trailingCharacters
  | endOfHexEscape
  /-- The text is JSON, but not what is asked for. -/
  | data (text : String)
  deriving DecidableEq, Repr

inductive JsonCategory where
  | grammar
  | data
  | ended
  deriving DecidableEq, Repr

namespace JsonProblem

def message : JsonProblem → String
  | .endInList => "EOF while parsing a list"
  | .endInObject => "EOF while parsing an object"
  | .endInString => "EOF while parsing a string"
  | .endInValue => "EOF while parsing a value"
  | .expectedColon => "expected `:`"
  | .expectedListEnd => "expected `,` or `]`"
  | .expectedObjectEnd => "expected `,` or `\x7d`"
  | .expectedWord => "expected ident"
  | .expectedValue => "expected value"
  | .invalidEscape => "invalid escape"
  | .invalidNumber => "invalid number"
  | .numberOutOfRange => "number out of range"
  | .controlCharacter => "control character (\\u0000-\\u001F) found while parsing a string"
  | .keyNotString => "key must be a string"
  | .loneSurrogate => "lone leading surrogate in hex escape"
  | .trailingComma => "trailing comma"
  | .trailingCharacters => "trailing characters"
  | .endOfHexEscape => "unexpected end of hex escape"
  | .data text => text

def category : JsonProblem → JsonCategory
  | .endInList | .endInObject | .endInString | .endInValue => .ended
  | .data _ => .data
  | _ => .grammar

end JsonProblem

/-- A problem and the number of bytes up to where it shows. -/
structure JsonFault where
  problem : JsonProblem
  offset : Nat
  deriving DecidableEq, Repr

namespace JsonFault

/-- Line of the fault, from one. -/
def line (f : JsonFault) (text : Bytes) : Nat := 1 + (text.take f.offset).count Ascii.lf

/-- Bytes from the start of the line to the fault. -/
def column (f : JsonFault) (text : Bytes) : Nat :=
  ((text.take f.offset).reverse.takeWhile (· != Ascii.lf)).length

def message (f : JsonFault) (text : Bytes) : String :=
  f.problem.message ++ " at line " ++ toString (f.line text) ++ " column "
    ++ toString (f.column text)

end JsonFault
end Uncomment
