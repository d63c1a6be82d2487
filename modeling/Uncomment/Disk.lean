import Uncomment.Failure

/-!
# Disks

A disk is a table from locations to files, symbolic links and directories, with a working
directory. Paths are resolved the way an operating system does it: component by component,
following links, with a bound on the number of links and on the length of names.
-/
namespace Uncomment

/-- Names from the top directory down. -/
abbrev Location := List Bytes

inductive Node where
  | file (content : Bytes) (mode : Nat)
  | link (target : Path)
  | directory
  deriving DecidableEq, Repr

/-- Permission bits; those of links and directories are not recorded. -/
def Node.mode : Node → Nat
  | .file _ mode => mode
  | .link _ => 0o777
  | .directory => 0o755

def Node.isFile : Node → Bool
  | .file .. => true
  | _ => false

def Node.isDirectory (n : Node) : Bool := n == .directory

structure Disk where
  entries : List (Location × Node)
  /-- The working directory. -/
  home : Location
  deriving DecidableEq, Repr

namespace Disk

/-! ## Looking up -/

/-- What stands at a location. The top directory is always there. -/
def node? (d : Disk) (loc : Location) : Option Node :=
  match loc with
  | [] => some .directory
  | _ => d.entries.lookup loc

/-- Names and nodes directly below a location. -/
def children (d : Disk) (loc : Location) : List (Bytes × Node) :=
  d.entries.filterMap fun (place, node) =>
    if place.dropLast == loc then place.getLast?.map (·, node) else none

/-- A path with this many bytes is too long to use. -/
def pathLimit : Nat := 4096

/-- The longest name of an entry. -/
def nameLimit : Nat := 255

/-- Links that one resolution may follow. -/
def linkLimit : Nat := 40

/-- The steps a path asks for. A slash after a name asks for a directory. -/
def steps (p : Path) : List Component :=
  p.lead.toList ++ p.parts.map fun part =>
    if Path.isFiller part then .here else Path.partComponent part

/-- Walk from the location `loc`. The last link of the walk is followed on request. -/
def locate (d : Disk) (follow : Bool) (links : Nat) (loc : Location) :
    List Component → Except IoFault Location
  | [] => .ok loc
  | step :: rest =>
    match d.node? loc with
    | some .directory =>
      match step with
      | .root => locate d follow links [] rest
      | .here => locate d follow links loc rest
      | .up => locate d follow links loc.dropLast rest
      | .name name =>
        if nameLimit < name.length then .error .nameTooLong
        else match d.node? (loc ++ [name]) with
          | none => .error .noEntry
          | some (.link target) =>
            if rest.isEmpty && !follow then .ok (loc ++ [name])
            else match links with
              | 0 => .error .linkLoop
              | links + 1 => locate d follow links loc (steps target ++ rest)
          | some _ => locate d follow links (loc ++ [name]) rest
    | _ => .error .notDirectory
termination_by todo => (links, todo.length)

/-- The location a path leads to, however long it is. -/
def reach (d : Disk) (follow : Bool) (p : Path) : Except IoFault Location :=
  if p.bytes.contains Ascii.nul then .error .nulByte
  else if p.isEmpty then .error .noEntry
  else d.locate follow linkLimit d.home (steps p)

/-- The location a path names. -/
def resolve (d : Disk) (follow : Bool) (p : Path) : Except IoFault Location :=
  if pathLimit ≤ p.bytes.length && !p.bytes.contains Ascii.nul then .error .nameTooLong
  else d.reach follow p

/-- What a path names, links followed. -/
def stat (d : Disk) (p : Path) : Except IoFault Node := do
  let place ← d.resolve true p
  match d.node? place with
  | some node => return node
  | none => throw .noEntry

def pathExists (d : Disk) (p : Path) : Bool := (d.stat p).isOk

def isFile (d : Disk) (p : Path) : Bool :=
  match d.stat p with
  | .ok (.file ..) => true
  | _ => false

/-- The content of a file. -/
def read (d : Disk) (p : Path) : Except IoFault Bytes :=
  match d.stat p with
  | .ok (.file content _) => .ok content
  | .ok _ => .error .isDirectory
  | .error fault => .error fault

/-- The entries of a directory. -/
def list (d : Disk) (p : Path) : Except IoFault (List (Bytes × Node)) := do
  let place ← d.resolve true p
  match d.node? place with
  | some .directory => return d.children place
  | _ => throw .notDirectory

/-- The path of a location from the top. -/
def absolute (loc : Location) : Path :=
  ⟨Ascii.slash :: Bytes.join Ascii.slash loc⟩

/-- The path from the top without links, dots and repeated slashes. Only its own length
counts. -/
def canonical (d : Disk) (p : Path) : Except IoFault Path := do
  let place ← d.reach true p
  if pathLimit ≤ (absolute place).bytes.length then throw .nameTooLong
  else return absolute place

/-! ## Changing -/

/-- Put a node at a location, in the place of what was there. -/
def set (d : Disk) (loc : Location) (node : Node) : Disk :=
  if d.entries.any (·.1 == loc) then
    { d with entries := d.entries.map fun e => if e.1 == loc then (loc, node) else e }
  else { d with entries := d.entries ++ [(loc, node)] }

/-- Remove the entry at a location. -/
def erase (d : Disk) (loc : Location) : Disk :=
  { d with entries := d.entries.filter fun e => e.1 != loc }

/-- Remove an entry and all that is below it. -/
def eraseTree (d : Disk) (loc : Location) : Disk :=
  { d with entries := d.entries.filter fun e => !loc.isPrefixOf e.1 }

/-- Make a location and everything above it a directory where nothing is yet. -/
def makeDirectories (d : Disk) (loc : Location) : Disk :=
  (List.range loc.length).foldl
    (fun d n =>
      let place := loc.take (n + 1)
      if (d.node? place).isSome then d else d.set place .directory)
    d

/-- The location at which a walk from `loc` creates an entry. Links are followed, in last
place on request, and names that are not there yet stand for directories to come. -/
def creationPlace (d : Disk) (follow : Bool) (links : Nat) (loc : Location) :
    List Component → Location
  | [] => loc
  | step :: rest =>
    match step with
    | .root => creationPlace d follow links [] rest
    | .here => creationPlace d follow links loc rest
    | .up => creationPlace d follow links loc.dropLast rest
    | .name name =>
      match d.node? (loc ++ [name]) with
      | some (.link target) =>
        if rest.isEmpty && !follow then loc ++ [name]
        else match links with
          | 0 => loc ++ [name]
          | links + 1 => creationPlace d follow links loc (steps target ++ rest)
      | _ => creationPlace d follow links (loc ++ [name]) rest
termination_by todo => (links, todo.length)

/-- Create a file, link or directory with the directories above it. Files and directories
are created where an existing link points to. -/
def create (d : Disk) (p : Path) (node : Node) : Disk :=
  let place := fun follow => d.creationPlace follow linkLimit d.home (steps p)
  match node with
  | .directory => d.makeDirectories (place true)
  | .link _ => (d.makeDirectories (place false).dropLast).set (place false) node
  | .file .. => (d.makeDirectories (place true).dropLast).set (place true) node

/-- Remove what a path names, without following it. -/
def remove (d : Disk) (p : Path) : Disk :=
  match d.resolve false p with
  | .ok place => d.eraseTree place
  | .error _ => d

end Disk
end Uncomment
