import Uncomment.Failure
import Uncomment.Globs
import Uncomment.Text.Blank

/-!
# Exclusion

Patterns for files to leave alone. A pattern with a slash or a double star is matched
against the path, as given and seen from the root of the search; any other pattern is
matched against the file name.
-/
namespace Uncomment

structure Exclusion where
  byName : List (Bytes → Bool) := []
  byPath : List (Bytes → Bool) := []

namespace Exclusion

def namesPath (pattern : String) : Bool :=
  let bytes := Bytes.ofText pattern
  bytes.contains Ascii.slash || Bytes.includes bytes [Ascii.star, Ascii.star]

def isBlankPattern (pattern : String) : Bool := (Text.trim pattern).isEmpty

/-- Add one pattern. Blank patterns are skipped. -/
def add [Globs] (e : Exclusion) (pattern : String) : Except Failure Exclusion :=
  if isBlankPattern pattern then .ok e
  else match Globs.compile false pattern with
    | .error details => .error (.invalidPattern pattern details)
    | .ok accepts =>
      if namesPath pattern then .ok { e with byPath := e.byPath ++ [accepts] }
      else .ok { e with byName := e.byName ++ [accepts] }

def ofPatterns [Globs] (patterns : List String) : Except Failure Exclusion :=
  patterns.foldlM add {}

def isEmpty (e : Exclusion) : Bool := e.byName.isEmpty && e.byPath.isEmpty

/-- Whether the path, found under `root`, is left out. -/
def excludes (e : Exclusion) (path root : Path) : Bool :=
  path.fileName?.any (fun name => e.byName.any (· name))
    || e.byPath.any fun accepts =>
      accepts path.bytes || accepts ((Path.relativeTo? root path).getD path).bytes

end Exclusion
end Uncomment
