import Uncomment.Lines
import Uncomment.Strip

/-! What came of one file. -/
namespace Uncomment

inductive Outcome where
  | success
  | skipped (reason : String)
  | error (kind : FailureKind) (message : String)
  deriving DecidableEq, Repr

structure FileResult where
  path : Path
  language : Option String := none
  inputLines : Nat := 0
  outputLines : Nat := 0
  commentsRemoved : Nat := 0
  /-- The file was written back. -/
  persisted : Bool := false
  outcome : Outcome
  removed : List RemovedComment := []
  malformed : Option Malformed := none
  deriving DecidableEq, Repr

namespace FileResult

def skipped (path : Path) (reason : String) : FileResult := { path, outcome := .skipped reason }

def failed (path : Path) (language : Option String) (failure : Failure) : FileResult :=
  { path, language, outcome := .error failure.kind failure.message }

def success (path : Path) (lang : Language) (stats : LineStats) (o : StripOutcome)
    (persisted : Bool) : FileResult where
  path := path
  language := some lang.name
  inputLines := stats.input
  outputLines := stats.output
  commentsRemoved := o.commentsRemoved
  persisted := persisted
  outcome := .success
  removed := o.removed
  malformed := o.malformed

def isSuccess (r : FileResult) : Bool := r.outcome == .success

def errorKind? (r : FileResult) : Option FailureKind :=
  match r.outcome with
  | .error kind _ => some kind
  | _ => none

def isError (r : FileResult) : Bool := r.errorKind?.isSome

def isSkipped (r : FileResult) : Bool :=
  match r.outcome with
  | .skipped _ => true
  | _ => false

end FileResult
end Uncomment
