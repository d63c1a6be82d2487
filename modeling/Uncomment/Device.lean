import Uncomment.Disk

/-!
# The device behind a disk

What a disk holds does not tell whether the system lets a step on a file go through: a read
can fail, a device can be full, an operation can be forbidden. Permission bits by themselves
forbid nothing.
-/
namespace Uncomment

/-- Steps of reading and replacing a file that can be refused. -/
inductive FileStep where
  | read
  | create
  | write
  | flush
  | permissions
  | rename
  deriving DecidableEq, Repr

class Device where
  /-- Why a step is refused in the work on the file that a path names. -/
  refusal? : FileStep → Path → Option IoFault

/-- Have a step refused or not. -/
def Device.permit [Device] (step : FileStep) (path : Path) : Except IoFault Unit :=
  match refusal? step path with
  | some fault => .error fault
  | none => .ok ()

/-- The content of a file, unless reading it is refused. -/
def Disk.readFile [Device] (d : Disk) (p : Path) : Except IoFault Bytes := do
  Device.permit .read p
  d.read p

end Uncomment
