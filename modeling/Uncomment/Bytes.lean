/-!
# Byte strings

Sources, paths and patterns are byte strings. This module names the ASCII bytes the
program looks at and gives searching, splitting and the lexicographic order.
-/
namespace Uncomment

abbrev Bytes := List UInt8

namespace Ascii

def nul : UInt8 := 0x00
def tab : UInt8 := 0x09
def lf : UInt8 := 0x0A
def formFeed : UInt8 := 0x0C
def cr : UInt8 := 0x0D
def space : UInt8 := 0x20
def quote : UInt8 := 0x22
def apostrophe : UInt8 := 0x27
def star : UInt8 := 0x2A
def plus : UInt8 := 0x2B
def dash : UInt8 := 0x2D
def dot : UInt8 := 0x2E
def slash : UInt8 := 0x2F
def questionMark : UInt8 := 0x3F
def openBracket : UInt8 := 0x5B
def backslash : UInt8 := 0x5C
def backquote : UInt8 := 0x60
def openBrace : UInt8 := 0x7B
def closeBrace : UInt8 := 0x7D

/-- Space, tab, line feed, form feed and carriage return. -/
def isSpace (b : UInt8) : Bool :=
  b == space || b == tab || b == lf || b == formFeed || b == cr

def isLineEnd (b : UInt8) : Bool := b == lf || b == cr

end Ascii

namespace Bytes

/-- The UTF-8 bytes of a text. -/
def ofText (s : String) : Bytes := s.toList.flatMap String.utf8EncodeChar

/-- Offset of the first occurrence of `needle`. -/
def indexOf? (needle : Bytes) : Bytes → Option Nat
  | [] => if needle.isEmpty then some 0 else none
  | b :: rest =>
    if needle.isPrefixOf (b :: rest) then some 0 else (indexOf? needle rest).map (· + 1)

def includes (s needle : Bytes) : Bool := (indexOf? needle s).isSome

/-- What follows `front` in `s`, when `s` begins with it. -/
def after? (front s : Bytes) : Option Bytes :=
  if front.isPrefixOf s then some (s.drop front.length) else none

/-- Pieces between the separators, empty pieces included. -/
def split (separator : UInt8) : Bytes → List Bytes
  | [] => [[]]
  | b :: rest =>
    if b == separator then [] :: split separator rest
    else match split separator rest with
      | [] => [[b]]
      | piece :: more => (b :: piece) :: more

def join (separator : UInt8) (pieces : List Bytes) : Bytes := [separator].intercalate pieces

/-- Drop the longest run at the end whose members satisfy `p`. -/
def dropEndWhile {α : Type} (p : α → Bool) (xs : List α) : List α :=
  (xs.reverse.dropWhile p).reverse

/-- Lexicographic comparison of two sequences. -/
def lexCompare {α : Type} (cmp : α → α → Ordering) : List α → List α → Ordering
  | [], [] => .eq
  | [], _ :: _ => .lt
  | _ :: _, [] => .gt
  | a :: as, b :: bs => (cmp a b).then (lexCompare cmp as bs)

def compareByte (a b : UInt8) : Ordering :=
  if a < b then .lt else if b < a then .gt else .eq

def compare (a b : Bytes) : Ordering := lexCompare compareByte a b

end Bytes
end Uncomment
