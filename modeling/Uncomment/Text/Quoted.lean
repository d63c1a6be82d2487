import Uncomment.Text.Extending
import Uncomment.Text.Unseen

/-!
# Quoted texts

A text between double quotes, with the characters spelt out that would not show.
-/
namespace Uncomment.Text

/-- The code point in hexadecimal. -/
def spelledOut (c : Char) : List Char :=
  ['\\', 'u', '\x7b'] ++ Nat.toDigits 16 c.toNat ++ ['\x7d']

def quotedChar (c : Char) : List Char :=
  match c with
  | '"' => ['\\', '"']
  | '\\' => ['\\', '\\']
  | '\n' => ['\\', 'n']
  | '\r' => ['\\', 'r']
  | '\t' => ['\\', 't']
  | '\x00' => ['\\', '0']
  | c => if isExtending c || isUnseen c then spelledOut c else [c]

def quoted (s : String) : String := String.ofList ('"' :: s.toList.flatMap quotedChar ++ ['"'])

end Uncomment.Text
