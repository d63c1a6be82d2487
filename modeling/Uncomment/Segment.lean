import Uncomment.Bytes
import Uncomment.Text.Utf8

/-!
# Segments

A scanned source is a sequence of segments: stretches of code, comments and string
literals that concatenate to the input.
-/
namespace Uncomment

inductive SegmentKind where
  | code
  | lineComment
  | blockComment
  | embeddedComment
  | stringLiteral
  deriving DecidableEq, Repr

namespace SegmentKind

def isComment : SegmentKind → Bool
  | .lineComment | .blockComment | .embeddedComment => true
  | .code | .stringLiteral => false

def label : SegmentKind → String
  | .code => "code"
  | .lineComment => "line comment"
  | .blockComment => "block comment"
  | .embeddedComment => "embedded comment"
  | .stringLiteral => "string literal"

def all : List SegmentKind :=
  [.code, .lineComment, .blockComment, .embeddedComment, .stringLiteral]

end SegmentKind

/-- A classified stretch of bytes. It is unterminated when the end of the input came before
the end of the construct. -/
structure Lexeme where
  kind : SegmentKind
  bytes : Bytes
  terminated : Bool
  deriving DecidableEq, Repr

/-- A lexeme with its place in the input: byte offset, and first and last line from 1. -/
structure Segment extends Lexeme where
  start : Nat
  startLine : Nat
  endLine : Nat
  deriving DecidableEq, Repr

namespace Lexeme

def isComment (l : Lexeme) : Bool := l.kind.isComment

/-- The bytes as text, for display. -/
def text (l : Lexeme) : String := Utf8.lossy l.bytes

end Lexeme

namespace Segment

def stop (s : Segment) : Nat := s.start + s.bytes.length

def lineFeeds (bytes : Bytes) : Nat := bytes.count Ascii.lf

/-- Place a lexeme at byte offset `start` on line `line`. The last line is the one that
holds the last byte, so a line feed at the end does not count. -/
def place (start line : Nat) (l : Lexeme) : Segment where
  toLexeme := l
  start := start
  startLine := line
  endLine := line + lineFeeds l.bytes - (if l.bytes.getLast? == some Ascii.lf then 1 else 0)

/-- Place consecutive lexemes one after the other. -/
def placeAll (start line : Nat) : List Lexeme → List Segment
  | [] => []
  | l :: rest =>
    place start line l :: placeAll (start + l.bytes.length) (line + lineFeeds l.bytes) rest

end Segment
end Uncomment
