import Uncomment.Exclude
import Uncomment.Ignoring
import Uncomment.Log
import Uncomment.Settings

/-!
# Directory walks

`walk` finds the supported files below a directory. Links are not followed, `.git` is never
entered, and entries that are excluded, ignored or hidden are passed over together with all
that is below them. The ignore files of a directory are read together with the directory.
-/
namespace Uncomment

inductive WalkItem where
  | file (path : Path)
  | failed (path : Path) (details : String)
  deriving DecidableEq, Repr

namespace Walk

/-- A name with a dot in front is hidden. -/
def isHidden (name : Bytes) : Bool := name.head? == some Ascii.dot

def isVersionControl (name : Bytes) (node : Node) : Bool :=
  node.isDirectory && name == Bytes.ofText ".git"

/-- The options of a walk, made ready: the patterns are read and the root is known. -/
structure Plan where
  root : Path
  ignoring : IgnoreOptions
  exclusion : Exclusion

/-- What a walk comes upon: an item to send, or a directory to read. -/
inductive Find where
  | item (item : WalkItem)
  | directory (path : Path)
  deriving DecidableEq, Repr

/-- The items that come from a find, with those that a walk down a directory gives. -/
def Find.items (goDown : Path → List WalkItem) : Find → List WalkItem
  | .item i => [i]
  | .directory path => goDown path

/-- The item for a file of the walk. -/
def fileItem (path : Path) : List WalkItem := if path.language?.isSome then [.file path] else []

/-- The item for a path that could not be looked at. -/
def faultItem (path : Path) (fault : IoFault) : WalkItem :=
  .failed path (path.display ++ ": " ++ fault.message)

/-- The path that stands for standard input and is not walked. -/
def standardInput : Path := Path.ofText "-"

variable [IgnoreRules]

/-- Whether an entry is reported or entered. -/
def Plan.admits (p : Plan) (scope : IgnoreRules.Scope) (path : Path) (name : Bytes)
    (node : Node) : Bool :=
  !IgnoreRules.rejects p.ignoring scope path node.isDirectory
    && !isVersionControl name node && !p.exclusion.excludes path p.root

/-- The finds for an entry of a directory. -/
def Plan.ofEntry (p : Plan) (scope : IgnoreRules.Scope) (directory : Path) (name : Bytes)
    (node : Node) : List Find :=
  let path := directory.join ⟨name⟩
  if p.admits scope path name node then
    match node with
    | .file .. => (fileItem path).map .item
    | .directory => [.directory path]
    | .link _ => []
  else []

/-- The finds in a directory, where the rules `scope` are in force. -/
def visit (d : Disk) (p : Plan) (scope : IgnoreRules.Scope) (directory : Path) : List Find :=
  match d.list directory with
  | .error fault => [.item (faultItem directory fault)]
  | .ok entries => entries.flatMap fun (name, node) => p.ofEntry scope directory name node

/-- Items at most `levels` levels below a directory. -/
def below (d : Disk) (p : Plan) (around : IgnoreRules.Scope) (directory : Path) :
    Nat → List WalkItem
  | 0 => []
  | levels + 1 =>
    let scope := IgnoreRules.enter d p.ignoring around directory
    (visit d p scope directory).flatMap (Find.items fun path => below d p scope path levels)

/-- The finds a walk begins with. -/
def start (d : Disk) (p : Plan) : List Find :=
  if Path.same p.root standardInput then []
  else match d.stat p.root with
    | .error fault => [.item (faultItem p.root fault)]
    | .ok .directory =>
      let failed := (IgnoreRules.faultsAbove d p.ignoring p.root).1
      failed.map (fun (path, details) => .item (.failed path details)) ++ [.directory p.root]
    | .ok _ => (fileItem p.root).map .item

/-- Warnings about ignore files above the root. -/
def warningsAbove (d : Disk) (p : Plan) : List String :=
  if (start d p).contains (.directory p.root) then
    (IgnoreRules.faultsAbove d p.ignoring p.root).2
  else []

/-- Levels of a walk. No entry is deeper than there are entries. -/
def levels (d : Disk) (recursive : Bool) : Nat := if recursive then d.entries.length else 1

end Walk

/-- Items of a walk, and warnings about ignore files above the root. -/
structure Walk where
  items : List WalkItem
  warnings : List String := []
  deriving DecidableEq, Repr

namespace Walk

/-- Walk below a root whose exclusions are known. -/
def ofPlan [IgnoreRules] (d : Disk) (p : Plan) (levels : Nat) : Walk where
  items := (start d p).flatMap
    (Find.items fun path => below d p (IgnoreRules.above d p.ignoring p.root) path levels)
  warnings := warningsAbove d p

def files (w : Walk) : List Path :=
  w.items.filterMap fun
    | .file path => some path
    | .failed .. => none

def failed (w : Walk) : List (Path × String) :=
  w.items.filterMap fun
    | .file _ => none
    | .failed path details => some (path, details)

def log (w : Walk) : List LogLine :=
  w.warnings.map LogLine.warn
    ++ w.failed.map fun (path, details) =>
      LogLine.warn ("walk error at " ++ path.display ++ ": " ++ details)

end Walk

/-- What a walk below `root` goes by. There is no plan when an exclude pattern is no glob. -/
def Walk.Plan.ofOptions [Globs] (options : WalkOptions) (root : Path) : Except Failure Walk.Plan := do
  let exclusion ← Exclusion.ofPatterns options.exclude
  return { root, ignoring := ⟨options.hidden, options.gitIgnore⟩, exclusion }

/-- Walk below `root`. -/
def walk [Globs] [IgnoreRules] (d : Disk) (options : WalkOptions) (root : Path) :
    Except Failure Walk :=
  (Walk.Plan.ofOptions options root).map fun plan =>
    Walk.ofPlan d plan (Walk.levels d options.recursive)

end Uncomment
