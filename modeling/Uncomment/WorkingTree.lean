import Uncomment.IgnoreFile

/-!
# Working trees

Where a directory under version control keeps its exclude file. As a rule that is inside
`.git`. In a linked working tree `.git` is a file that names the directory with the data of
the tree, and `commondir` in there names the directory that all trees share.
-/
namespace Uncomment.WorkingTree

/-- The first line of a file. An empty file has none. -/
def firstLine (content : Bytes) : Except IoFault (Option String) :=
  match (IgnoreFile.lines content).head? with
  | none => .ok none
  | some line =>
    match Utf8.text? line with
    | some text => .ok (some text)
    | none => .error .notUtf8

/-- The directory that the first line of a `.git` file names. -/
def named? (line : String) : Option Path :=
  (Bytes.after? (Bytes.ofText "gitdir: ") (Bytes.ofText line)).map Path.mk

/-- The shared directory that `line` names in the directory `tree`. Only what begins with a
dot is relative to `tree`. -/
def shared (tree : Path) (line : String) : Path :=
  let named := Path.ofText line
  if named.bytes.head? == some Ascii.dot then tree.join named else named

/-- Where the data of a linked tree name the shared directory. -/
def commonFile (tree : Path) : Path := tree.join (Path.ofText "commondir")

/-- The directory shared by the tree with its data in `tree`. There is none when its file
cannot be opened; a directory in the place of the file can be opened but not read. -/
def sharedOf (d : Disk) (tree : Path) : Except IgnoreFault (Option Path) :=
  match d.read (commonFile tree) with
  | .ok content =>
    match firstLine content with
    | .ok line => .ok (line.map (shared tree))
    | .error fault => .error (.reference (commonFile tree) fault)
  | .error fault =>
    if fault == .isDirectory then .error (.reference (commonFile tree) fault) else .ok none

/-- The data of the linked tree whose `.git` file is `place`. -/
def treeAt (place : Path) (content : Bytes) : Except IgnoreFault (Option Path) :=
  match firstLine content with
  | .ok line => .ok (line.bind named?)
  | .error fault => .error (.reference place fault)

/-- The version control data that apply to a directory. -/
def dataOf (d : Disk) (directory : Path) : Except IgnoreFault (Option Path) := do
  let place := directory.join (Path.ofText ".git")
  match d.stat place with
  | .ok (.file content _) =>
    match ← treeAt place content with
    | some tree => sharedOf d tree
    | none => return none
  | _ => return some place

/-- The exclude file that applies to a directory. -/
def excludeFile (d : Disk) (directory : Path) : Except IgnoreFault (Option Path) :=
  (dataOf d directory).map (·.map (·.join (Path.ofText "info/exclude")))

end Uncomment.WorkingTree
