/-!
# Blank characters

The characters with the Unicode property White_Space, and trimming by them.
-/
namespace Uncomment.Text

/-- Inclusive code point ranges of White_Space. -/
def blankRanges : List (Nat × Nat) :=
  [(0x09, 0x0D), (0x20, 0x20), (0x85, 0x85), (0xA0, 0xA0), (0x1680, 0x1680),
    (0x2000, 0x200A), (0x2028, 0x2029), (0x202F, 0x202F), (0x205F, 0x205F), (0x3000, 0x3000)]

def isBlank (c : Char) : Bool := blankRanges.any fun r => r.1 ≤ c.toNat && c.toNat ≤ r.2

/-- The characters without the blank ones at the end. -/
def trimEndChars (cs : List Char) : List Char := (cs.reverse.dropWhile isBlank).reverse

/-- The text without the blank characters around it. -/
def trim (s : String) : String := String.ofList (trimEndChars (s.toList.dropWhile isBlank))

end Uncomment.Text
