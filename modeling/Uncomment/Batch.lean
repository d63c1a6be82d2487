import Uncomment.FileResult

/-! The results of a run over many files: ordered by path, with totals. -/
namespace Uncomment

structure Totals where
  filesProcessed : Nat := 0
  commentsRemoved : Nat := 0
  linesProcessed : Nat := 0
  filesWritten : Nat := 0
  skipped : Nat := 0
  failures : Nat := 0
  deriving DecidableEq, Repr

/-- Comments and lines count for successful files only. -/
def Totals.add (t : Totals) (r : FileResult) : Totals :=
  let t := { t with filesWritten := t.filesWritten + (if r.persisted then 1 else 0) }
  if r.isSuccess then
    { t with
      filesProcessed := t.filesProcessed + 1,
      commentsRemoved := t.commentsRemoved + r.commentsRemoved,
      linesProcessed := t.linesProcessed + r.inputLines }
  else if r.isError then { t with failures := t.failures + 1 }
  else { t with skipped := t.skipped + 1 }

structure Batch where
  files : List FileResult
  totals : Totals
  deriving DecidableEq, Repr

namespace Batch

def sortByPath (rs : List FileResult) : List FileResult :=
  rs.mergeSort fun a b => a.path.le b.path

/-- Results in the order of their paths; results of equal paths keep their order. -/
def ofResults (rs : List FileResult) : Batch :=
  let files := sortByPath rs
  ⟨files, files.foldl Totals.add {}⟩

def failed (b : Batch) : Bool := 0 < b.totals.failures

def errors (b : Batch) : List FileResult := b.files.filter FileResult.isError

end Batch
end Uncomment
