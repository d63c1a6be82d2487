import Uncomment.Invocation
import Uncomment.Process
import Uncomment.Report
import Uncomment.Standard

/-!
# Execution

Running an invocation and reporting on it, and the program as a whole from its arguments
to its exit status.
-/
namespace Uncomment

/-- Why an invocation has no report. -/
inductive ExecutionFault where
  | processing (target : Path) (failure : Failure)
  | nothingFound (target : Path)
  deriving DecidableEq, Repr

namespace ExecutionFault

/-- The message followed by the messages of the causes behind it. -/
def chain : ExecutionFault → List String
  | .processing target failure => ("processing " ++ target.display) :: failure.chain
  | .nothingFound target => ["No supported files found in '" ++ target.display ++ "'"]

def message (f : ExecutionFault) : String := ": ".intercalate f.chain

end ExecutionFault

/-- A finished run that has something to report. -/
structure Execution where
  batch : Batch
  /-- The target is a single file. -/
  single : Bool
  deriving DecidableEq, Repr

namespace Execution

/-- Every file succeeded. -/
def succeeded (e : Execution) : Bool := !e.batch.failed

/-- The report; `millis` is the time the run took. A single target file has a report of its
own. -/
def report (e : Execution) (settings : Settings) (printer : Printer) (millis : String) : String :=
  match e.single, e.batch.files with
  | true, [file] => printer.fileReport file settings millis
  | _, _ => printer.batchReport e.batch settings millis

/-- A batch in which nothing was processed has no report. -/
def ofBatch (target : Path) (single : Bool) (batch : Batch) : Except ExecutionFault Execution :=
  if batch.files.all FileResult.isSkipped then .error (.nothingFound target)
  else .ok ⟨batch, single⟩

end Execution

/-- Run an invocation. -/
def execute [Host] (d : Disk) (inv : Invocation) : Effect (Except ExecutionFault Execution) :=
  let single := d.isFile inv.target
  (run d inv.settings).map fun
    | .error failure => .error (.processing inv.target failure)
    | .ok batch => Execution.ofBatch inv.target single batch

/-- How the program ends. -/
structure Exit where
  status : Nat
  output : String := ""
  errors : String := ""
  deriving DecidableEq, Repr

namespace Exit

def success : Nat := 0
def failure : Nat := 1
def usage : Nat := 2

/-- The program stopped with an error message. -/
def ofMessages (chain : List String) : Exit :=
  { status := failure, errors := Printer.error ⟨false⟩ (": ".intercalate chain) }

def ofStop : Stop → Exit
  | .help => { status := success, output := Arguments.helpText }
  | .version => { status := success, output := Arguments.versionText }
  | .fault _ => { status := usage, errors := "error: invalid arguments, try '--help'\n" }

/-- The exit after a run. Output that goes to no terminal has no colours. -/
def ofExecution (settings : Settings) (result : Except ExecutionFault Execution) (millis : String) :
    Exit :=
  match result with
  | .ok e =>
    { status := if e.succeeded then success else failure
      output := e.report settings ⟨false⟩ millis }
  | .error fault => ofMessages fault.chain

end Exit

/-- The program, from the arguments and the disk to the exit. The exit depends on the text
for the time the run took. -/
def program [Host] (d : Disk) (words : List String) (processors : Nat) :
    Effect (String → Exit) :=
  match Arguments.parse words with
  | .error stop => ⟨fun _ => .ofStop stop, d, []⟩
  | .ok args =>
    match Invocation.ofArguments d args processors with
    | .error fault => ⟨fun _ => .ofMessages fault.chain, d, []⟩
    | .ok inv => (execute d inv).map (Exit.ofExecution inv.settings)

end Uncomment
