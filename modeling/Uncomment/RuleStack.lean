import Uncomment.WorkingTree

/-!
# Rules along a walk

Of the ignore files, the program's own outweighs `.ignore`, that outweighs `.gitignore`, and
that outweighs `.git/info/exclude`; of one kind, the innermost file with a matching rule
decides, directories above the root included. There is no ignore file for all directories.
-/
namespace Uncomment

/-- The kinds of ignore files. -/
inductive RuleSource where
  | own
  | general
  | git
  | gitExclude
  deriving DecidableEq, Repr

namespace RuleSource

/-- From the weightiest on. -/
def all : List RuleSource := [.own, .general, .git, .gitExclude]

/-- The ignore file of this kind for a directory. -/
def file (d : Disk) (directory : Path) : RuleSource → Except IgnoreFault (Option Path)
  | .own => .ok (some (directory.join (Path.ofText IgnoreFile.ownName)))
  | .general => .ok (some (directory.join (Path.ofText ".ignore")))
  | .git => .ok (some (directory.join (Path.ofText IgnoreFile.gitName)))
  | .gitExclude => WorkingTree.excludeFile d directory

def isGit : RuleSource → Bool
  | .git | .gitExclude => true
  | _ => false

def admitted (gitIgnore : Bool) : List RuleSource := all.filter fun s => gitIgnore || !s.isGit

end RuleSource

/-- The rules of the ignore files of one directory. -/
structure DirectoryRules where
  lists : List (RuleSource × RuleList)
  report : Option FaultReport

namespace DirectoryRules

/-- The rules of one ignore file. A file that is bad for its reading alone goes without
report, and rules that cannot be used together count for nothing. -/
def ofFile (d : Disk) (file : Path) : List IgnoreRule × Option FaultReport :=
  let (rules, faults) := IgnoreFile.read d file
  let malformed := if faults.all IgnoreFault.isReading then none else FaultReport.ofFaults faults
  match CompileFault.find? rules with
  | none => (rules, malformed)
  | some fault => ([], FaultReport.ofParts (malformed.toList ++ [.one (.compile fault)]))

def ofSource (d : Disk) (directory : Path) (source : RuleSource) :
    List IgnoreRule × Option FaultReport :=
  match source.file d directory with
  | .ok (some file) => ofFile d file
  | .ok none => ([], none)
  | .error fault => ([], some (.one fault))

def read (d : Disk) (gitIgnore : Bool) (directory : Path) : DirectoryRules :=
  let files := (RuleSource.admitted gitIgnore).map fun source =>
    (source, ofSource d directory source)
  { lists := files.map fun (source, rules, _) => (source, RuleList.ofRules directory rules)
    report := FaultReport.ofParts (files.filterMap fun (_, _, report) => report) }

def verdict? (r : DirectoryRules) (source : RuleSource) (path : Bytes) (isDirectory : Bool) :
    Option Verdict :=
  (r.lists.lookup source).bind (·.verdict? path isDirectory)

end DirectoryRules

/-- The rules that apply in a directory of a walk. -/
structure RuleStack where
  root : Path
  /-- The root without links, when it could be found. -/
  base : Option Path
  /-- Rules of the directories from the current one out to the root. -/
  inner : List DirectoryRules := []
  /-- Rules of the directories above the root, the nearest first. -/
  outer : List DirectoryRules := []

namespace RuleStack

/-- The proper ancestors of a location, the nearest first. -/
def ancestors (loc : Location) : List Location :=
  (List.range loc.length).reverse.map fun n => loc.take n

/-- The rules at the root of a walk, before any directory is entered. -/
def start (d : Disk) (gitIgnore : Bool) (root : Path) : RuleStack :=
  match d.canonical root, d.resolve true root with
  | .ok base, .ok place =>
    { root, base := some base,
      outer := (ancestors place).map fun loc =>
        DirectoryRules.read d gitIgnore (Disk.absolute loc) }
  | _, _ => { root, base := none }

def enter (s : RuleStack) (rules : DirectoryRules) : RuleStack :=
  { s with inner := rules :: s.inner }

/-- A path of the walk as the rules above the root see it. -/
def outerView (s : RuleStack) (base : Path) (path : Bytes) : Bytes :=
  if Path.same s.root Path.here then (base.join ⟨path⟩).bytes
  else
    let rest := (Bytes.after? (RuleList.bare s.root.bytes) path).getD path
    (base.join ⟨(Bytes.after? [Ascii.slash] rest).getD rest⟩).bytes

def verdictOf? (s : RuleStack) (source : RuleSource) (path : Bytes) (isDirectory : Bool) :
    Option Verdict :=
  (s.inner.findSome? (·.verdict? source path isDirectory)).or
    (s.base.bind fun base =>
      s.outer.findSome? (·.verdict? source (s.outerView base path) isDirectory))

def verdict? (s : RuleStack) (path : Path) (isDirectory : Bool) : Option Verdict :=
  RuleSource.all.findSome? fun source =>
    s.verdictOf? source (RuleList.bare path.bytes) isDirectory

/-- The faults above the root, from the top down. -/
def report (s : RuleStack) : Option FaultReport :=
  FaultReport.ofParts (s.outer.reverse.filterMap DirectoryRules.report)

/-- A single fault above the root is an item, and every part of a larger report a warning. -/
def faults (s : RuleStack) : List (Path × String) × List String :=
  match s.report with
  | none => ([], [])
  | some (.one fault) => ([(fault.file?.getD s.root, fault.message)], [])
  | some (.group parts) => ([], parts.map FaultReport.message)

end RuleStack

end Uncomment
