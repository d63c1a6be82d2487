import Uncomment.Batch
import Uncomment.Settings

/-!
# Reports

The text shown to the user, with terminal colours on request.
-/
namespace Uncomment

inductive Colour where
  | reset
  | red
  | green
  | yellow
  | blue
  | cyan
  | bold
  | dim
  deriving DecidableEq, Repr

def Colour.code : Colour → String
  | .reset => "\x1b[0m"
  | .red => "\x1b[31m"
  | .green => "\x1b[32m"
  | .yellow => "\x1b[33m"
  | .blue => "\x1b[34m"
  | .cyan => "\x1b[36m"
  | .bold => "\x1b[1m"
  | .dim => "\x1b[2m"

/-- Whether reports use colours. -/
structure Printer where
  colour : Bool
  deriving DecidableEq, Repr

namespace Printer

/-- `text` between the codes of `colours` and a reset. -/
def paint (p : Printer) (colours : List Colour) (text : String) : String :=
  if p.colour then String.join (colours.map Colour.code) ++ text ++ Colour.reset.code else text

def stat (p : Printer) (label : String) (value : Nat) : String :=
  p.paint [.cyan] (label ++ ":") ++ " " ++ p.paint [.bold] (toString value) ++ "\n"

def warning (p : Printer) (message : String) : String :=
  p.paint [.yellow] "Warning:" ++ " " ++ message ++ "\n"

def hint (p : Printer) (message : String) : String := "\n" ++ p.paint [.cyan] message ++ "\n"

def success (p : Printer) (message : String) : String :=
  p.paint [.green] "✓" ++ " " ++ message ++ "\n"

def error (p : Printer) (message : String) : String :=
  p.paint [.red, .bold] "Error:" ++ " " ++ message ++ "\n"

/-- The line with the execution time; `millis` is the number shown. -/
def timeLine (p : Printer) (millis : String) : String :=
  "\n" ++ p.paint [.dim] ("Execution time: " ++ millis ++ "ms") ++ "\n"

def executionTime (p : Printer) (elapsed : Duration) : String := p.timeLine elapsed.millisText

def malformedWarning (p : Printer) (r : FileResult) : String :=
  match r.malformed with
  | some note => p.warning (note.describe r.path)
  | none => ""

def removedListing (p : Printer) (r : FileResult) : String :=
  "\n" ++ p.paint [.yellow, .bold] "Removed comments:" ++ "\n"
    ++ String.join (r.removed.map fun c =>
      "  " ++ p.paint [.blue] ("Line " ++ toString c.line ++ ":") ++ " "
        ++ p.paint [.dim] c.text ++ "\n")

/-- Closing remark of the report on one file. -/
def fileRemark (p : Printer) (r : FileResult) (settings : Settings) : String :=
  if settings.write then
    if r.persisted then p.success "File updated successfully!" else p.success "No changes needed."
  else if 0 < r.commentsRemoved then p.hint "Run with --write to apply changes to the file."
  else ""

def successReport (p : Printer) (r : FileResult) (settings : Settings) : String :=
  p.paint [.blue] "File:" ++ " " ++ r.path.display ++ " (" ++ r.language.getD "unknown" ++ ")\n"
    ++ (if settings.isLarge r.inputLines then
        p.warning ("Large file detected: " ++ toString r.inputLines ++ " lines (>500 LOC)")
      else "")
    ++ p.malformedWarning r
    ++ p.stat "Original lines" r.inputLines
    ++ p.stat "Comments removed" r.commentsRemoved
    ++ p.stat "Remaining lines" r.outputLines
    ++ (if !settings.write && !r.removed.isEmpty then p.removedListing r else "")
    ++ p.fileRemark r settings

/-- Report on a single target file. -/
def fileReport (p : Printer) (r : FileResult) (settings : Settings) (millis : String) : String :=
  (match r.outcome with
    | .skipped reason =>
      p.paint [.blue] "Skipped:" ++ " " ++ r.path.display ++ " (" ++ reason ++ ")\n"
    | .error kind message =>
      p.paint [.red, .bold] (kind.label ++ ":") ++ " " ++ message ++ "\n"
    | .success => p.successReport r settings)
    ++ p.timeLine millis

def fileWarnings (p : Printer) (settings : Settings) (r : FileResult) : String :=
  (if r.isSuccess && settings.isLarge r.inputLines then
      p.warning ("Large file: " ++ r.path.display ++ " (" ++ toString r.inputLines ++ " lines)")
    else "")
    ++ p.malformedWarning r

def failedWrites (b : Batch) : Nat :=
  (b.errors.filter (·.errorKind? == some .writeFailure)).length

def writeSummary (p : Printer) (b : Batch) : String :=
  p.stat "Files written successfully" b.totals.filesWritten
    ++ (if 0 < failedWrites b then
        p.paint [.red] ("Failed writes: " ++ toString (failedWrites b)) ++ "\n"
      else "")

def errorListing (p : Printer) (b : Batch) : String :=
  p.paint [.red] ("Failed: " ++ toString b.totals.failures) ++ "\n"
    ++ "\n" ++ p.paint [.red, .bold] "Errors:" ++ "\n"
    ++ String.join (b.errors.map fun r =>
      match r.outcome with
      | .error _ message => "  " ++ p.paint [.red] message ++ "\n"
      | _ => "")

/-- Warnings, then the summary of a batch. -/
def batchReport (p : Printer) (b : Batch) (settings : Settings) (millis : String) : String :=
  String.join (b.files.map (p.fileWarnings settings))
    ++ "\n" ++ p.paint [.bold, .cyan] "Batch Processing Summary:" ++ "\n"
    ++ p.stat "Files processed" b.totals.filesProcessed
    ++ p.stat "Total comments removed" b.totals.commentsRemoved
    ++ p.stat "Total lines processed" b.totals.linesProcessed
    ++ (if settings.write then p.writeSummary b else "")
    ++ (if 0 < b.totals.failures then p.errorListing b else "")
    ++ (if !settings.write && 0 < b.totals.commentsRemoved then
        p.hint "Run with --write to apply changes to all files."
      else "")
    ++ p.timeLine millis

end Printer
end Uncomment
