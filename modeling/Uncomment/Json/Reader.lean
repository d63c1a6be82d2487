import Uncomment.Double
import Uncomment.Json.Fault
import Uncomment.Text.Quoted
import Uncomment.Text.Utf8

/-!
# Reading JSON

Readers for the parts of a JSON text. The caller asks for the kind of value it needs, so a
value of another kind is a fault where it stands; values nobody asks for are passed over.
-/
namespace Uncomment

/-- Where reading stands in a text of `size` bytes: the number of bytes read, and the bytes
to come. -/
structure Cursor where
  size : Nat
  offset : Nat := 0
  rest : Bytes
  deriving DecidableEq, Repr

def Cursor.ofBytes (s : Bytes) : Cursor := { size := s.length, rest := s }

/-- The cursor after the next `n` bytes, which are there. -/
def Cursor.advance (c : Cursor) (n : Nat) : Cursor :=
  { c with offset := c.offset + n, rest := c.rest.drop n }

abbrev JsonReader (α : Type) := EStateM JsonFault Cursor α

namespace Json

/-! ## Bytes -/

/-- Fail after the bytes read. -/
def fail {α : Type} (p : JsonProblem) : JsonReader α := fun c => .error ⟨p, c.offset⟩ c

/-- Fail at the byte to come, when there is one. -/
def failAhead {α : Type} (p : JsonProblem) : JsonReader α := fun c =>
  .error ⟨p, c.offset + (c.rest.take 1).length⟩ c

def peek : JsonReader (Option UInt8) := fun c => .ok c.rest.head? c

/-- Take at most `n` bytes. -/
def take (n : Nat) : JsonReader Bytes := fun c =>
  let taken := c.rest.take n
  .ok taken (c.advance taken.length)

def next : JsonReader (Option UInt8) := return (← take 1).head?

def skip : JsonReader Unit := return ((fun _ => ()) (← take 1))

def takeWhile (p : UInt8 → Bool) : JsonReader Bytes := fun c =>
  let taken := c.rest.takeWhile p
  .ok taken (c.advance taken.length)

/-- Bytes to come, as a bound on the steps of a loop. -/
def remaining : JsonReader Nat := fun c => .ok (c.size - c.offset) c

def isBlank (b : UInt8) : Bool :=
  b == Ascii.space || b == Ascii.lf || b == Ascii.tab || b == Ascii.cr

/-- Pass over blanks and look at what follows. -/
def ahead : JsonReader (Option Char) := do
  let _ ← takeWhile isBlank
  return (← peek).map fun b => Char.ofNat b.toNat

def isDigit (b : UInt8) : Bool := 0x30 ≤ b && b ≤ 0x39

def digitValue (b : UInt8) : Nat := b.toNat - 0x30

/-- Read the given letters. -/
def word : List Char → JsonReader Unit
  | [] => return
  | c :: rest => do
    match ← next with
    | none => fail .endInValue
    | some b => if b.toNat == c.toNat then word rest else fail .expectedWord

/-! ## Numbers -/

inductive Number where
  | natural (n : Nat)
  /-- The number `-n`, which is below zero. -/
  | negative (n : Nat)
  | fraction (isNegative : Bool) (x : Double)
  deriving DecidableEq, Repr

def wordLimit : Nat := Decimal.twoTo 64

/-- Append digits as long as the number stays below the limit. Gives the number and how
many digits went into it. -/
def accumulate (limit : Nat) (n count : Nat) : Bytes → Nat × Nat
  | [] => (n, count)
  | b :: rest =>
    let m := n * 10 + digitValue b
    if m < limit then accumulate limit m (count + 1) rest else (n, count)

/-- A decimal to be read: significand and exponent of ten. -/
def decimalValue (isNegative : Bool) (significand : Nat) (exponent : Int) : JsonReader Number :=
  match Double.ofDecimal? significand exponent with
  | some x => return .fraction isNegative x
  | none => fail .numberOutOfRange

def exponentLimit : Nat := Decimal.twoTo 31

/-- Read the digits of an exponent. One that is out of bounds makes the number zero, or
puts it out of range. -/
def exponentDigits (isNegative : Bool) (significand : Nat) (start : Int) (down : Bool) :
    JsonReader Number := do
  let ahead : Bytes ← fun c => .ok (c.rest.takeWhile isDigit) c
  let (value, count) := accumulate exponentLimit 0 0 ahead
  if count < ahead.length then
    let _ ← take (count + 1)
    if significand != 0 && !down then fail .numberOutOfRange
    else
      let _ ← takeWhile isDigit
      return .fraction isNegative ⟨0, Double.leastExponent⟩
  else
    let _ ← take count
    decimalValue isNegative significand (if down then start - value else start + value)

/-- Read an exponent from its mark on. -/
def exponentPart (isNegative : Bool) (significand : Nat) (start : Int) : JsonReader Number := do
  skip
  let sign := (← peek).filter fun b => b == Ascii.plus || b == Ascii.dash
  if sign.isSome then skip
  match ← peek with
  | none => fail .endInValue
  | some b =>
    if isDigit b then exponentDigits isNegative significand start (sign == some Ascii.dash)
    else
      skip
      fail .invalidNumber

def isExponentMark (b : Option UInt8) : Bool := b == some 0x65 || b == some 0x45

/-- Read the decimals from the point on. Digits beyond the precision are dropped. -/
def decimalPart (isNegative : Bool) (significand : Nat) (start : Int) : JsonReader Number := do
  skip
  let digits ← takeWhile isDigit
  if digits.isEmpty then
    failAhead (if (← peek).isSome then .invalidNumber else .endInValue)
  else
    let (significand, count) := accumulate wordLimit significand 0 digits
    if isExponentMark (← peek) then exponentPart isNegative significand (start - count)
    else decimalValue isNegative significand (start - count)

/-- An integer as it is, a float when it does not fit or is minus zero. -/
def integer (isNegative : Bool) (n : Nat) : Number :=
  if !isNegative then .natural n
  else if 0 < n && n ≤ Decimal.twoTo 63 then .negative n
  else .fraction true (Double.ofNat n)

/-- Read a number after its sign. -/
def number (isNegative : Bool) : JsonReader Number := do
  match ← peek with
  | none => fail .endInValue
  | some b =>
    if !isDigit b then
      skip
      fail .invalidNumber
    else
      let digits ← if b == 0x30 then take 1 else takeWhile isDigit
      if b == 0x30 && (← peek).any isDigit then failAhead .invalidNumber
      else
        let (significand, count) := accumulate wordLimit 0 0 digits
        let dropped := digits.length - count
        if (← peek) == some Ascii.dot then decimalPart isNegative significand dropped
        else if isExponentMark (← peek) then exponentPart isNegative significand dropped
        else if 0 < dropped then decimalValue isNegative significand dropped
        else return integer isNegative significand

/-! ## Strings -/

def hexValue? (b : UInt8) : Option Nat :=
  if isDigit b then some (digitValue b)
  else if 0x61 ≤ b && b ≤ 0x66 then some (b.toNat - 0x61 + 10)
  else if 0x41 ≤ b && b ≤ 0x46 then some (b.toNat - 0x41 + 10)
  else none

/-- Read four hexadecimal digits. -/
def hexEscape : JsonReader Nat := do
  let digits ← take 4
  if digits.length < 4 then fail .endInString
  else match digits.mapM hexValue? with
    | some values => return values.foldl (fun n v => n * 16 + v) 0
    | none => fail .invalidEscape

/-- Read the byte `b`, the first or second of an escape that has to follow. -/
def expectEscape (b : UInt8) : JsonReader Unit := do
  match ← peek with
  | none => fail .endInString
  | some found =>
    skip
    if found != b then fail .endOfHexEscape

def isLeading (n : Nat) : Bool := 0xD800 ≤ n && n ≤ 0xDBFF

def isTrailing (n : Nat) : Bool := 0xDC00 ≤ n && n ≤ 0xDFFF

/-- Read the character of a hexadecimal escape, which may be a pair of surrogates. -/
def unicodeEscape : JsonReader Char := do
  let n ← hexEscape
  if isTrailing n then fail .loneSurrogate
  else if !isLeading n then return Char.ofNat n
  else
    expectEscape Ascii.backslash
    expectEscape 0x75
    let m ← hexEscape
    if isTrailing m then return Char.ofNat ((n - 0xD800) * 0x400 + (m - 0xDC00) + 0x10000)
    else fail .loneSurrogate

/-- What a one-letter escape stands for. -/
def shortEscape? (b : UInt8) : Option Char :=
  match Char.ofNat b.toNat with
  | '"' => some '"'
  | '\\' => some '\\'
  | '/' => some '/'
  | 'b' => some '\x08'
  | 'f' => some '\x0c'
  | 'n' => some '\n'
  | 'r' => some '\r'
  | 't' => some '\t'
  | _ => none

/-- Read an escape after its backslash. -/
def escape (unicode : JsonReader Bytes) : JsonReader Bytes := do
  match ← next with
  | none => fail .endInString
  | some b =>
    if b == 0x75 then unicode
    else match shortEscape? b with
      | some c => return Bytes.ofText (String.singleton c)
      | none => fail .invalidEscape

def isPlain (b : UInt8) : Bool := b != Ascii.quote && b != Ascii.backslash && 0x20 ≤ b

/-- Read a string after its opening quote. The pieces read before have the last one first. -/
def stringBody (pieces : List Bytes) : Nat → JsonReader Bytes
  | 0 => fail .endInString
  | steps + 1 => do
    let plain ← takeWhile isPlain
    match ← next with
    | none => fail .endInString
    | some b =>
      if b == Ascii.quote then return (plain :: pieces).reverse.flatten
      else if b == Ascii.backslash then
        let more ← escape (return Bytes.ofText (String.singleton (← unicodeEscape)))
        stringBody (more :: plain :: pieces) steps
      else fail .controlCharacter

def string : JsonReader String := do
  skip
  return Utf8.lossy (← stringBody [] ((← remaining) + 1))

/-! ## Values nobody asks for -/

/-- Pass over a string after its opening quote. -/
def skipStringBody : Nat → JsonReader Unit
  | 0 => fail .endInString
  | steps + 1 => do
    let _ ← takeWhile isPlain
    match ← peek with
    | none => fail .endInString
    | some b =>
      if b == Ascii.quote then skip
      else if b == Ascii.backslash then
        skip
        let _ ← escape (do let _ ← hexEscape; return [])
        skipStringBody steps
      else fail .controlCharacter

def skipString : JsonReader Unit := do
  skip
  skipStringBody ((← remaining) + 1)

def skipExponent : JsonReader Unit := do
  skip
  if (← peek).any fun b => b == Ascii.plus || b == Ascii.dash then skip
  if (← next).any isDigit then
    let _ ← takeWhile isDigit
  else fail .invalidNumber

/-- Pass over a number after its sign. -/
def skipNumber : JsonReader Unit := do
  let first ← next
  if !first.any isDigit then fail .invalidNumber
  else
    if first == some 0x30 then
      if (← peek).any isDigit then failAhead .invalidNumber
    else
      let _ ← takeWhile isDigit
    if (← peek) == some Ascii.dot then
      skip
      if (← takeWhile isDigit).isEmpty then failAhead .invalidNumber
    if isExponentMark (← peek) then skipExponent

/-- A list or an object that is still open. -/
inductive Frame where
  | list
  | object
  deriving DecidableEq, Repr

def Frame.close : Frame → Char
  | .list => ']'
  | .object => '\x7d'

/-- Pass over a value that has no parts, or go into one that has. -/
def skipScalar (c : Option Char) : JsonReader (Option Frame) := do
  match c with
  | none => failAhead .endInValue
  | some 'n' => skip; word ['u', 'l', 'l']; return none
  | some 't' => skip; word ['r', 'u', 'e']; return none
  | some 'f' => skip; word ['a', 'l', 's', 'e']; return none
  | some '-' => skip; skipNumber; return none
  | some '"' => skipString; return none
  | some '[' => skip; return some .list
  | some '\x7b' => skip; return some .object
  | some c => if c.isDigit then skipNumber; return none else failAhead .expectedValue

/-- Close the frames that end here. Gives the frames that stay open, for which another
value has to follow. -/
def closeFrames (acceptComma : Bool) : List Frame → JsonReader (List Frame)
  | [] => return []
  | frame :: outer => do
    match ← ahead with
    | none => failAhead (if frame == .list then .endInList else .endInObject)
    | some c =>
      if c == ',' && acceptComma then
        skip
        return frame :: outer
      else if c == frame.close then
        skip
        closeFrames true outer
      else if acceptComma then
        failAhead (if frame == .list then .expectedListEnd else .expectedObjectEnd)
      else return frame :: outer

/-- Read the colon after a key. -/
def colon : JsonReader Unit := do
  match ← ahead with
  | some ':' => skip
  | some _ => failAhead .expectedColon
  | none => failAhead .endInObject

/-- Pass over a key of an object and its colon. -/
def skipKey : JsonReader Unit := do
  match ← ahead with
  | some '"' => skipString
  | some _ => failAhead .keyNotString
  | none => failAhead .endInObject
  colon

def skipParts (frames : List Frame) : Nat → JsonReader Unit
  | 0 => return
  | steps + 1 => do
    let entered ← skipScalar (← ahead)
    let frames ← match entered with
      | some frame => closeFrames false (frame :: frames)
      | none => closeFrames true frames
    match frames with
    | [] => return
    | frame :: outer =>
      if frame == .object then skipKey
      skipParts (frame :: outer) steps

/-- Pass over a value of any kind and depth. -/
def skipValue : JsonReader Unit := do skipParts [] ((← remaining) + 1)

/-! ## Values of a kind -/

def Number.described : Number → String
  | .natural n => "integer `" ++ toString n ++ "`"
  | .negative n => "integer `-" ++ toString n ++ "`"
  | .fraction isNegative x =>
    "floating point `" ++ (if isNegative then "-" else "") ++ x.text ++ "`"

def wrongKind {α : Type} (found expected : String) : JsonReader α :=
  fail (.data ("invalid type: " ++ found ++ ", expected " ++ expected))

/-- Fail because the value that begins with `c` is of another kind than expected. A scalar
is read first, and what is wrong inside it comes before. -/
def refuse {α : Type} (c : Char) (expected : String) : JsonReader α := do
  match c with
  | 'n' => skip; word ['u', 'l', 'l']; wrongKind "null" expected
  | 't' => skip; word ['r', 'u', 'e']; wrongKind "boolean `true`" expected
  | 'f' => skip; word ['a', 'l', 's', 'e']; wrongKind "boolean `false`" expected
  | '-' => skip; wrongKind (← number true).described expected
  | '"' => wrongKind ("string " ++ Text.quoted (← string)) expected
  | '[' => wrongKind "sequence" expected
  | '\x7b' => wrongKind "map" expected
  | c =>
    if c.isDigit then wrongKind (← number false).described expected
    else failAhead .expectedValue

/-- Look at the first character of a value. -/
def valueAhead : JsonReader Char := do
  match ← ahead with
  | some c => return c
  | none => failAhead .endInValue

def bool : JsonReader Bool := do
  match ← valueAhead with
  | 't' => skip; word ['r', 'u', 'e']; return true
  | 'f' => skip; word ['a', 'l', 's', 'e']; return false
  | c => refuse c "a boolean"

/-- Read a number that has to be a whole one. -/
def natural (expected : String) : JsonReader Nat := do
  let c ← valueAhead
  if c != '-' && !c.isDigit then refuse c expected
  else
    if c == '-' then skip
    match ← number (c == '-') with
    | .natural n => return n
    | .negative n =>
      fail (.data ("invalid value: integer `-" ++ toString n ++ "`, expected " ++ expected))
    | found => wrongKind found.described expected

/-- Read a value that may be null. -/
def optional {α : Type} (read : JsonReader α) : JsonReader (Option α) := do
  match ← ahead with
  | some 'n' => skip; word ['u', 'l', 'l']; return none
  | _ => return some (← read)

/-- Whether another element of a list follows. -/
def hasElement (first : Bool) : JsonReader Bool := do
  match ← ahead with
  | none => failAhead .endInList
  | some c =>
    if c == ']' then return false
    else if first then return true
    else if c == ',' then
      skip
      match ← ahead with
      | some ']' => failAhead .trailingComma
      | some _ => return true
      | none => failAhead .endInValue
    else failAhead .expectedListEnd

/-- Whether another key of an object follows. -/
def hasKey (first : Bool) : JsonReader Bool := do
  match ← ahead with
  | none => failAhead .endInObject
  | some c =>
    if c == '\x7d' then return false
    else if first then
      if c == '"' then return true else failAhead .keyNotString
    else if c == ',' then
      skip
      match ← ahead with
      | some '"' => return true
      | some '\x7d' => failAhead .trailingComma
      | some _ => failAhead .keyNotString
      | none => failAhead .endInValue
    else failAhead .expectedObjectEnd

/-- Read the end of a list that holds no more than was asked for. -/
def endList : JsonReader Unit := do
  match ← ahead with
  | some ']' => skip
  | some ',' =>
    skip
    match ← ahead with
    | some ']' => failAhead .trailingComma
    | _ => failAhead .trailingCharacters
  | some _ => failAhead .trailingCharacters
  | none => failAhead .endInList

def text : JsonReader String := do
  match ← valueAhead with
  | '"' => string
  | c => refuse c "a string"

def elements {α : Type} (read : JsonReader α) (taken : List α) (first : Bool) :
    Nat → JsonReader (List α)
  | 0 => return taken.reverse
  | steps + 1 => do
    if ← hasElement first then
      let value ← read
      elements read (value :: taken) false steps
    else
      skip
      return taken.reverse

/-- Read a list of values. -/
def listOf {α : Type} (read : JsonReader α) : JsonReader (List α) := do
  match ← valueAhead with
  | '[' => skip; elements read [] true ((← remaining) + 1)
  | c => refuse c "a sequence"

/-- Read a whole text. -/
def whole {α : Type} (read : JsonReader α) (s : Bytes) : Except JsonFault α :=
  let reader : JsonReader α := do
    let value ← read
    match ← ahead with
    | some _ => failAhead .trailingCharacters
    | none => return value
  match reader.run (.ofBytes s) with
  | .ok value _ => .ok value
  | .error fault _ => .error fault

end Json
end Uncomment
