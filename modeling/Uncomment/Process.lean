import Uncomment.Batch
import Uncomment.Disk.Replace
import Uncomment.Expand

/-!
# Processing

Files, directories and glob targets are read from a disk, stripped, and written back on
request. What fails for one file is part of its result; what makes a target as a whole
unusable ends the run.
-/
namespace Uncomment

/-- What a run relies on besides the disk. -/
class Host extends Clock, Globs, IgnoreRules, Device where
  /-- Start a pool with a number of workers. -/
  pool : (jobs : Nat) → Except String Unit

/-- Give a file new content. -/
def writeFile [Device] (d : Disk) (path : Path) (content : Bytes) : Effect (Except Failure Unit) :=
  let (answer, d) := d.replace path content
  ⟨answer.mapError (Failure.writeFailure path), d, []⟩

/-- Write `output` over a file when writing is on and something changed. The answer tells
whether it was written. -/
def apply [Device] (d : Disk) (path : Path) (input output : Bytes) (write : Bool) :
    Effect (Except Failure Bool) :=
  if !write || input == output then ⟨.ok false, d, []⟩
  else (writeFile d path output).map (·.map fun _ => true)

/-- The log line on a stripped file. -/
def strippedNote (path : Path) (o : StripOutcome) (stats : LineStats) (persisted : Bool) :
    LogLine :=
  .debug (path.display ++ ": " ++ toString o.commentsRemoved ++ " comments removed, "
    ++ toString stats.input ++ " -> " ++ toString stats.output ++ " lines"
    ++ (if persisted then " (written)" else ""))

def malformedNotes (path : Path) (o : StripOutcome) : List LogLine :=
  o.malformed.toList.map fun m => .warn (m.describe path)

/-- Strip a file of a known language. -/
def stripStored [Clock] [Device] (d : Disk) (lang : Language) (settings : Settings) (write : Bool)
    (path : Path) : Effect (Except Failure FileResult) :=
  match d.readFile path with
  | .error fault => ⟨.error (.ofRead path fault), d, []⟩
  | .ok input =>
    match stripFile lang settings.stripOptions path input with
    | .error failure =>
      let glued := Strip.gluedInTime lang settings.stripOptions path (scan lang input)
      ⟨.error failure, d, glued.map fun line => .debug (glueNote path line)⟩
    | .ok o =>
      let stats := LineStats.of input o.output
      let notes := (o.notes path).map LogLine.debug ++ malformedNotes path o
      ((apply d path input o.output write).after notes).andThen fun persisted d =>
        ⟨.ok (FileResult.success path lang stats o persisted), d,
          [strippedNote path o stats persisted]⟩

/-- Process one file. Failures are part of the result. -/
def processFile [Clock] [Device] (d : Disk) (settings : Settings) (write : Bool) (path : Path) :
    Effect FileResult :=
  match path.language? with
  | none =>
    let extension := (path.extension?.map Utf8.lossy).getD ""
    ⟨FileResult.failed path none (.unsupportedLanguage path extension), d, []⟩
  | some lang =>
    let e := stripStored d lang settings write path
    match e.value with
    | .ok result => ⟨result, e.disk, e.log⟩
    | .error failure =>
      ⟨FileResult.failed path (some lang.name) failure, e.disk, e.log ++ [.warn failure.message]⟩

/-- Start the pool of workers. -/
def startPool [Host] (settings : Settings) : Except Failure Unit :=
  (Host.pool settings.jobs).mapError Failure.threadPool

section
variable [Host]

/-- Process a file that was named as a target: exclude patterns and the ignore files beside
it apply. -/
def processTarget (d : Disk) (settings : Settings) (write : Bool) (path : Path) :
    Effect (Except Failure FileResult) :=
  match Exclusion.ofPatterns settings.walk.exclude with
  | .error failure => ⟨.error failure, d, []⟩
  | .ok exclusion =>
    if exclusion.excludes path (path.parent?.getD path) then
      ⟨.ok (FileResult.skipped path "excluded by pattern"), d,
        [.debug (path.display ++ " matches an exclude pattern")]⟩
    else
      let siblings := SiblingRules.forFile d path settings.walk.gitIgnore
      let warnings := siblings.warnings.map LogLine.warn
      if siblings.ignores path then
        ⟨.ok (FileResult.skipped path "ignored by ignore file"), d,
          warnings ++ [.debug (path.display ++ " is ignored")]⟩
      else ((processFile d settings write path).map .ok).after warnings

/-- Process an item of a walk. -/
def processItem (d : Disk) (settings : Settings) (write : Bool) : WalkItem → Effect FileResult
  | .file path => processFile d settings write path
  | .failed path details => ⟨FileResult.failed path none (.walk path details), d, []⟩

namespace Batch

def globNote (b : Batch) (pattern : Path) : LogLine :=
  .info (pattern.display ++ ": " ++ toString b.files.length ++ " files matched, "
    ++ toString b.totals.commentsRemoved ++ " comments removed")

def directoryNote (b : Batch) (root : Path) : LogLine :=
  .info (root.display ++ ": " ++ toString b.totals.filesProcessed ++ " files, "
    ++ toString b.totals.commentsRemoved ++ " comments removed, "
    ++ toString b.totals.failures ++ " failed")

end Batch

/-- Collect results to a batch and log a summary. -/
def summarize (note : Batch → List LogLine) (results : List FileResult) (d : Disk) :
    Effect (Except Failure Batch) :=
  let batch := Batch.ofResults results
  ⟨.ok batch, d, note batch⟩

/-- Process the files that a pattern matches, each like a named target. -/
def processGlob (d : Disk) (settings : Settings) (write : Bool) (pattern : Path) :
    Effect (Except Failure Batch) :=
  (expandGlob d settings.walk pattern).andThen fun paths d =>
    match startPool settings with
    | .error failure => ⟨.error failure, d, []⟩
    | .ok () =>
      (Effect.forEach (fun d path => processTarget d settings write path) d paths).andThen
        (summarize fun batch => [batch.globNote pattern])

/-- Process the files below a directory. The failure of a walk is looked at when all that it
sent has been processed. -/
def processDirectory (d : Disk) (settings : Settings) (recursive write : Bool) (root : Path) :
    Effect (Except Failure Batch) :=
  match startPool settings with
  | .error failure => ⟨.error failure, d, []⟩
  | .ok () =>
    let found := walk d { settings.walk with recursive } root
    let sent := found.toOption.getD { items := [] }
    ((Effect.forEach (fun d item => (processItem d settings write item).map .ok) d
      sent.items).after sent.log).andThen fun results d =>
        match found with
        | .error failure => ⟨.error (.context ("walking " ++ root.display) failure), d, []⟩
        | .ok _ => summarize (fun batch => [batch.directoryNote root]) results d

/-- Process a file, a directory or a pattern. -/
def processBatch (d : Disk) (settings : Settings) (recursive write : Bool) (root : Path) :
    Effect (Except Failure Batch) :=
  if GlobTarget.isPattern d root then processGlob d settings write root
  else match d.stat root with
    | .error fault => ⟨.error (.ofRead root fault), d, []⟩
    | .ok .directory => processDirectory d settings recursive write root
    | .ok _ =>
      (processTarget d settings write root).andThen fun result d =>
        summarize (fun _ => []) [result] d

/-- Process all roots of the settings. -/
def run (d : Disk) (settings : Settings) : Effect (Except Failure Batch) :=
  match settings.validate with
  | .error failure => ⟨.error failure, d, []⟩
  | .ok () =>
    (Effect.forEach
      (fun d root => processBatch d settings settings.walk.recursive settings.write root) d
      settings.roots).andThen
      fun batches d => summarize (fun _ => []) (batches.flatMap fun batch => batch.files) d

end

end Uncomment
