import Uncomment.Walk

/-!
# Glob targets

A target that does not exist and has wildcards is a pattern. It is expanded to the
supported files that it matches: the components in front without wildcards give the
directory to start from, and the others bound the depth of the search.
-/
namespace Uncomment.GlobTarget

def hasWildcard (text : Bytes) : Bool :=
  text.any fun b => b == Ascii.star || b == Ascii.questionMark || b == Ascii.openBracket

/-- Whether a target is a pattern and not a path. -/
def isPattern (d : Disk) (target : Path) : Bool :=
  !d.pathExists target && Utf8.isValid target.bytes && hasWildcard target.bytes

/-- Where a search starts and how deep it goes. -/
structure Search where
  base : Path
  /-- Without a limit when a component has a double star. -/
  depth : Option Nat
  deriving DecidableEq, Repr

def Search.ofPattern (pattern : Path) : Search :=
  let isPlain := fun (c : Component) => !hasWildcard c.bytes
  let rest := pattern.components.dropWhile isPlain
  { base := (pattern.components.takeWhile isPlain).foldl (fun p c => p.join ⟨c.bytes⟩) ⟨[]⟩
    depth :=
      if rest.any fun c => Bytes.includes c.bytes [Ascii.star, Ascii.star] then none
      else some rest.length }

/-- Regular files of a search, and warnings about what could not be read. -/
structure Found where
  files : List Path := []
  warnings : List String := []
  deriving DecidableEq, Repr

namespace Found

def append (a b : Found) : Found := ⟨a.files ++ b.files, a.warnings ++ b.warnings⟩

def concat (parts : List Found) : Found := parts.foldr append {}

def unreadable (path : Path) (fault : IoFault) : Found :=
  { warnings := [path.display ++ ": IO error for operation on " ++ path.display ++ ": "
      ++ fault.message] }

/-- Files at most `levels` levels below a directory. -/
def below (d : Disk) (hidden : Bool) (directory : Path) : Nat → Found
  | 0 => {}
  | levels + 1 =>
    match d.list directory with
    | .error fault => unreadable directory fault
    | .ok entries =>
      concat (entries.map fun (name, node) =>
        let path := directory.join ⟨name⟩
        if (hidden || !Walk.isHidden name) && !Walk.isVersionControl name node then
          match node with
          | .file .. => { files := [path] }
          | .directory => below d hidden path levels
          | .link _ => {}
        else {})

/-- Files at or below the base of a search. A link in the place of the base is followed. -/
def atBase (d : Disk) (hidden : Bool) (base : Path) (levels : Nat) : Found :=
  if Path.same base Walk.standardInput then {}
  else match d.stat base with
    | .error fault => unreadable base fault
    | .ok .directory => below d hidden base levels
    | .ok _ => { files := [base] }

end Found

/-- The files of a search. From the working directory they are named without a leading dot. -/
def search (d : Disk) (hidden : Bool) (s : Search) : Found :=
  let levels := s.depth.getD d.entries.length
  if s.base.isEmpty then
    let found := Found.atBase d hidden Path.here levels
    { found with files := found.files.map fun p => (Path.relativeTo? Path.here p).getD p }
  else Found.atBase d hidden s.base levels

end Uncomment.GlobTarget

namespace Uncomment

/-- The supported files that a pattern matches, in order. -/
def expandGlob [Globs] (d : Disk) (options : WalkOptions) (pattern : Path) :
    Effect (Except Failure (List Path)) :=
  let text := pattern.display
  match Globs.compile true text with
  | .error details => ⟨.error (.invalidPattern text details), d, []⟩
  | .ok accepts =>
    let found := GlobTarget.search d options.hidden (GlobTarget.Search.ofPattern pattern)
    let warnings := found.warnings.map LogLine.warn
    let matched := found.files.filter fun p => accepts p.bytes
    if matched.isEmpty then ⟨.error (.noMatches text), d, warnings⟩
    else
      let files := (matched.filter (·.language?.isSome)).mergeSort Path.le
      let note := LogLine.debug (text ++ ": " ++ toString files.length ++ " supported files")
      ⟨.ok files, d, warnings ++ [note]⟩

end Uncomment
