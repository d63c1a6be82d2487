import Uncomment.Disk

/-!
# Ignore rules

The rules of ignore files are read and applied by a library. A walk asks it which entries to
pass over; for a file that is a target itself, the ignore files beside it are handed to the
library as one list of rules.
-/
namespace Uncomment

/-- What a rule says about an entry. -/
inductive Verdict where
  | ignored
  | allowed
  deriving DecidableEq, Repr

/-- What a walk asks for. -/
structure IgnoreOptions where
  /-- Hidden entries are walked. -/
  hidden : Bool
  gitIgnore : Bool
  deriving DecidableEq, Repr

/-- A library for ignore files. -/
class IgnoreRules where
  /-- The rules in force in a directory of a walk. -/
  Scope : Type
  /-- The rules in force at the root of a walk before it is entered: those of the directories
  above it, and those that hold everywhere. -/
  above : Disk → IgnoreOptions → (root : Path) → Scope
  /-- Faults in these rules, as failed items of the walk with their paths and as warnings. -/
  faultsAbove : Disk → IgnoreOptions → (root : Path) → List (Path × String) × List String
  /-- The rules in force in a directory, given those around it. -/
  enter : Disk → IgnoreOptions → Scope → (directory : Path) → Scope
  /-- Whether a walk passes over an entry of the directory: it is ignored, or hidden and
  hidden entries are not asked for. -/
  rejects : IgnoreOptions → Scope → (path : Path) → (isDirectory : Bool) → Bool
  /-- What is wrong with the content of an ignore file, if anything is. -/
  complaint? : (file : Path) → (content : Bytes) → Option String
  /-- The contents of ignore files in a directory as one list of rules, the weightiest last. -/
  build : (directory : Path) → (contents : List Bytes) →
    Except String (Path → Bool → Option Verdict)

namespace IgnoreFile

/-- The program's own ignore file. -/
def ownName : String := ".commenterignore"

def gitName : String := ".gitignore"

end IgnoreFile

/-- Rules of the ignore files beside one target file. -/
structure SiblingRules where
  verdict? : Path → Bool → Option Verdict
  warnings : List String

namespace SiblingRules

/-- The names of the ignore files that count for a target. The program's own file comes last
and so prevails. -/
def names (gitIgnore : Bool) : List String :=
  (if gitIgnore then [IgnoreFile.gitName] else []) ++ [IgnoreFile.ownName]

/-- The ignore files in a directory, as far as they are there, with what they hold. -/
def files (d : Disk) (directory : Path) (gitIgnore : Bool) : List (Path × Bytes) :=
  (names gitIgnore).filterMap fun name =>
    let file := directory.join (Path.ofText name)
    (d.read file).toOption.map (file, ·)

/-- Read the ignore files beside `path`. Rules that cannot be used together count for
nothing. -/
def forFile [IgnoreRules] (d : Disk) (path : Path) (gitIgnore : Bool) : SiblingRules :=
  let files := files d path.directory gitIgnore
  let malformed := files.filterMap fun (file, content) =>
    (IgnoreRules.complaint? file content).map fun text =>
      "ignoring malformed rules in " ++ file.display ++ ": " ++ text
  match IgnoreRules.build path.directory (files.map Prod.snd) with
  | .ok verdict? => { verdict?, warnings := malformed }
  | .error details =>
    { verdict? := fun _ _ => none
      warnings := malformed ++ ["failed to compile ignore rules under "
        ++ path.directory.display ++ ": " ++ details] }

def ignores (s : SiblingRules) (path : Path) : Bool := s.verdict? path false == some .ignored

end SiblingRules
end Uncomment
