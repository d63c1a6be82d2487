import Uncomment.Bytes

/-!
# UTF-8 decoding

`Utf8.decode` reads a byte string as UTF-8. Each maximal part that no well-formed
sequence can begin with is one ill-formed item, shown as U+FFFD by `Utf8.lossy`.
-/
namespace Uncomment.Utf8

/-- What a lead byte announces: its payload bits, the range of the second byte and the
number of bytes after the second. -/
structure Lead where
  payload : Nat
  low : UInt8
  high : UInt8
  more : Nat

def lead? (b : UInt8) : Option Lead :=
  if 0xC2 ≤ b && b ≤ 0xDF then some ⟨b.toNat % 32, 0x80, 0xBF, 0⟩
  else if b == 0xE0 then some ⟨0, 0xA0, 0xBF, 1⟩
  else if b == 0xED then some ⟨0xD, 0x80, 0x9F, 1⟩
  else if 0xE1 ≤ b && b ≤ 0xEF then some ⟨b.toNat % 16, 0x80, 0xBF, 1⟩
  else if b == 0xF0 then some ⟨0, 0x90, 0xBF, 2⟩
  else if 0xF1 ≤ b && b ≤ 0xF3 then some ⟨b.toNat % 8, 0x80, 0xBF, 2⟩
  else if b == 0xF4 then some ⟨4, 0x80, 0x8F, 2⟩
  else none

/-- Read `more` continuation bytes, the first of them between `low` and `high`. Gives the
character, or nothing when the sequence breaks off, and the number of bytes read. -/
def continuation (value count : Nat) (low high : UInt8) : Nat → Bytes → Option Char × Nat
  | 0, _ => (some (Char.ofNat value), count)
  | _ + 1, [] => (none, count)
  | more + 1, b :: rest =>
    if low ≤ b && b ≤ high then
      continuation (value * 64 + b.toNat % 64) (count + 1) 0x80 0xBF more rest
    else (none, count)

/-- The item that begins with `b`, and how many bytes of `rest` belong to it. -/
def item (b : UInt8) (rest : Bytes) : Option Char × Nat :=
  if b < 0x80 then (some (Char.ofNat b.toNat), 0)
  else match lead? b with
    | none => (none, 0)
    | some l => continuation l.payload 0 l.low l.high (l.more + 1) rest

/-- Characters of a byte string, with `none` for each ill-formed part. -/
def decode : Bytes → List (Option Char)
  | [] => []
  | b :: rest => (item b rest).1 :: decode (rest.drop (item b rest).2)
termination_by s => s.length
decreasing_by simp only [List.length_drop, List.length_cons]; omega

def isValid (s : Bytes) : Bool := (decode s).all Option.isSome

def replacement : Char := Char.ofNat 0xFFFD

/-- The text with a replacement character for each ill-formed part. -/
def lossy (s : Bytes) : String := String.ofList ((decode s).map (·.getD replacement))

/-- The text of well-formed UTF-8. -/
def text? (s : Bytes) : Option String := if isValid s then some (lossy s) else none

end Uncomment.Utf8
