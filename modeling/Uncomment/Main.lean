import Uncomment.Execution

/-!
# The executable

The files that a run can look at are loaded into a disk, the program runs on that disk, and
changed files are written back.
-/
namespace Uncomment.FileTree

/-- Permissions are left to the system: a file that is written back keeps its own. -/
def plainFile (content : ByteArray) : Node := .file content.toList 0o644

/-- The location of a path that is free of links. -/
def placeOf (home : Location) (p : Path) : Location :=
  Disk.creationPlace ⟨[], home⟩ true 0 home (Disk.steps p)

/-- The entries at and below a directory entry, without those that cannot be read. -/
partial def entries (e : IO.FS.DirEntry) : IO (List (Location × Node)) := do
  let place := placeOf [] (Path.ofText e.path.toString)
  try
    match (← e.path.symlinkMetadata).type with
    | .dir =>
      let below ← (← e.path.readDir).toList.mapM entries
      return (place, .directory) :: below.flatten
    | .file => return [(place, plainFile (← IO.FS.readBinFile e.path))]
    | .symlink => return [(place, .link (Path.ofText (← IO.FS.realPath e.path).toString))]
    | .other => return []
  catch _ => return []

/-- Add one file, if it can be read. -/
def addFile (d : Disk) (path : Path) : IO Disk := do
  try
    return d.create path (plainFile (← IO.FS.readBinFile path.display))
  catch _ => return d

/-- Names of files that hold rules for the directory they are in, or tell where some are. -/
def ruleFiles : List String :=
  [IgnoreFile.ownName, ".ignore", IgnoreFile.gitName, ".git", ".git/info/exclude"]

/-- Add the files with rules for a directory. -/
def addRules (d : Disk) (directory : Location) : IO Disk :=
  ruleFiles.foldlM (fun d name => addFile d ((Disk.absolute directory).join (Path.ofText name))) d

/-- Add the exclude file of a linked working tree. -/
def addReferences (d : Disk) (directory : Location) : IO Disk := do
  let path := Disk.absolute directory
  let place := path.join (Path.ofText ".git")
  match (d.read place).toOption.map (WorkingTree.treeAt place) with
  | some (.ok (some tree)) =>
    let d ← addFile d (WorkingTree.commonFile tree)
    match WorkingTree.excludeFile d path with
    | .ok (some file) => addFile d file
    | _ => return d
  | _ => return d

/-- A directory entry for a location. -/
def wholePath (place : Location) : IO.FS.DirEntry := ⟨"/", (Disk.absolute place).display⟩

/-- Everything below a directory, and the ignore files of the directories above it. -/
def addTree (d : Disk) (directory : Location) : IO Disk := do
  let d := d.makeDirectories directory
  let d ← (RuleStack.ancestors directory).foldlM addRules d
  let below ← (← (wholePath directory).path.readDir).toList.mapM entries
  let fresh := below.flatten.filter fun e => (d.node? e.1).isNone
  let d := { d with entries := d.entries ++ fresh }
  let linked := d.entries.filter fun e => e.2.isFile && e.1.getLast? == some (Bytes.ofText ".git")
  linked.foldlM (fun d e => addReferences d e.1.dropLast) d

/-- The directory to load for a target that is not below the working directory. -/
def outside? (home : Location) (target : Path) : IO (Option Location) := do
  let place := placeOf home (GlobTarget.Search.ofPattern target).base
  if home.isPrefixOf place then return none
  else if ← (wholePath place).path.isDir then return some place
  else return some place.dropLast

/-- The files that a run in the working directory can look at. -/
def load (words : List String) : IO Disk := do
  let home := placeOf [] (Path.ofText (← IO.currentDir).toString)
  let d ← addTree ⟨[], home⟩ home
  match Arguments.parse words with
  | .error _ => return d
  | .ok args =>
    match ← outside? home (Path.ofText args.path) with
    | none => return d
    | some directory => try addTree d directory catch _ => return d

/-- Write the files back that changed. -/
def save (old new : Disk) : IO Unit :=
  new.entries.forM fun (place, node) => do
    match node with
    | .file content _ =>
      if old.node? place != some node then
        IO.FS.writeBinFile (Disk.absolute place).display ⟨content.toArray⟩
    | _ => return

end Uncomment.FileTree

namespace Uncomment

/-- Warnings are shown, and all log lines on request. -/
def shownLines (words : List String) (log : List LogLine) : List LogLine :=
  let verbose := match Arguments.parse words with
    | .ok args => args.verbose
    | .error _ => false
  log.filter fun l => verbose || l.level == .warn

end Uncomment

open Uncomment in
def main (words : List String) : IO UInt32 := do
  let start ← IO.monoNanosNow
  let disk ← FileTree.load words
  let run := program disk words 1
  FileTree.save disk run.disk
  let stop ← IO.monoNanosNow
  (shownLines words run.log).forM fun l => IO.eprintln l.render
  let exit := run.value (Duration.mk (stop - start)).millisText
  IO.print exit.output
  IO.eprint exit.errors
  return exit.status.toUInt32
