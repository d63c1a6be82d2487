import Uncomment.Device

/-!
# Replacing a file

A file is replaced in one step: the new content goes to a temporary file beside it, which
takes over its permissions and is then renamed over it. Links are resolved first, so the
file behind a link is replaced and the link stays.
-/
namespace Uncomment.Disk

/-- Name of the `n`th temporary file. -/
def temporaryName (n : Nat) : Bytes :=
  Bytes.ofText (".commenter-" ++ String.ofList (Decimal.padded 6 n) ++ ".tmp")

/-- A name for a temporary file that the directory does not have yet. -/
def freshName (d : Disk) (directory : Location) : Bytes :=
  let used := (d.children directory).map Prod.fst
  ((List.range (used.length + 1)).map temporaryName).find? (!used.contains ·)
    |>.getD (temporaryName used.length)

/-- Create an empty temporary file, readable by its owner alone. -/
def createTemporary (d : Disk) (parent : Path) : Except IoFault (Location × Disk) := do
  let directory ← d.resolve true parent
  match d.node? directory with
  | some .directory =>
    let name := freshName d directory
    let path := (((absolute d.home).join parent).join ⟨name⟩)
    if pathLimit ≤ path.bytes.length then throw .nameTooLong
    else return (directory ++ [name], d.set (directory ++ [name]) (.file [] 0o600))
  | _ => throw .notDirectory

def setContent (d : Disk) (loc : Location) (content : Bytes) : Disk :=
  match d.node? loc with
  | some (.file _ mode) => d.set loc (.file content mode)
  | _ => d

def setMode (d : Disk) (loc : Location) (mode : Nat) : Disk :=
  match d.node? loc with
  | some (.file content _) => d.set loc (.file content mode)
  | _ => d

/-- Where a file arrives that is renamed to `p`. The name may be free, or be that of a file
or a link; a directory is not replaced. -/
def destination (d : Disk) (p : Path) : Except IoFault Location :=
  match d.resolve false p with
  | .ok place =>
    match d.node? place with
    | some .directory => .error .isDirectory
    | _ => .ok place
  | .error fault =>
    if !fault.isNotFound || p.isEmpty then .error fault
    else match (steps p).reverse with
      | .name name :: before => do
        let directory ← d.locate true linkLimit d.home before.reverse
        match d.node? directory with
        | some .directory => return directory ++ [name]
        | _ => throw .notDirectory
      | _ => .error .notDirectory

/-- Rename the file at a location. -/
def rename (d : Disk) (source : Location) (p : Path) : Except IoFault Disk := do
  let target ← d.destination p
  match d.node? source with
  | some node => return (d.erase source).set target node
  | none => throw .noEntry

/-- The file that a write to `p` replaces: the one behind the links, or `p` itself when
nothing is there. -/
def writeTarget (d : Disk) (p : Path) : Except IoFault Path :=
  match d.canonical p with
  | .ok target => .ok target
  | .error fault => if fault.isNotFound then .ok p else .error fault

/-- Give the temporary file the permissions of the file to replace, where there is one. -/
def passMode [Device] (d : Disk) (temporary : Location) (mode? : Option Nat) (p : Path) :
    Except IoFault Disk :=
  match mode? with
  | some mode => (Device.permit .permissions p).map fun _ => d.setMode temporary mode
  | none => .ok d

/-- Fill the temporary file, give it its permissions and rename it. -/
def install [Device] (d : Disk) (temporary : Location) (mode? : Option Nat) (p target : Path)
    (content : Bytes) : Except IoFault Disk := do
  Device.permit .write p
  Device.permit .flush p
  let ready ← (d.setContent temporary content).passMode temporary mode? p
  Device.permit .rename p
  ready.rename temporary target

/-- Replace the content of a file. When a step fails the temporary file is removed, whatever
it holds by then. -/
def replace [Device] (d : Disk) (p : Path) (content : Bytes) : Except IoFault Unit × Disk :=
  match d.writeTarget p with
  | .error fault => (.error fault, d)
  | .ok target =>
    let mode? := (d.stat target).toOption.map Node.mode
    match Device.permit .create p >>= fun _ => d.createTemporary target.directory with
    | .error fault => (.error fault, d)
    | .ok (temporary, fresh) =>
      match fresh.install temporary mode? p target content with
      | .ok done => (.ok (), done)
      | .error fault => (.error fault, fresh.erase temporary)

end Uncomment.Disk
