import Uncomment.Bytes

/-!
# The glob library

Exclude patterns and glob targets are compiled by a library. What a compiled pattern accepts
is up to the library; the program hands it the text of the pattern and then paths.
-/
namespace Uncomment

/-- A library that compiles texts to tests for paths. A text that it cannot read, or whose
expression it cannot build, is refused with a message. -/
class Globs where
  /-- `*` and `?` stop at slashes when `slashIsLiteral` is on. -/
  compile : (slashIsLiteral : Bool) → (text : String) → Except String (Bytes → Bool)

end Uncomment
