import Uncomment.Process
import Uncomment.RuleStack

/-!
# The standard host

The glob library and the ignore library are the ones of this project. The clock stands still,
the device refuses nothing, and a pool always starts.
-/
namespace Uncomment

namespace Glob

/-- Compile a text for one of the two readings of slashes. -/
def compile (slashIsLiteral : Bool) (text : String) : Except String (Bytes → Bool) :=
  match parse ⟨slashIsLiteral, false⟩ text with
  | .error fault => .error (faultText text fault)
  | .ok glob =>
    if glob.isTooDeep then .error (CompileFault.single glob.expression).message
    else .ok glob.accepts

end Glob

namespace IgnoreFile

/-- What is wrong with the lines of an ignore file. -/
def complaint? (file : Path) (content : Bytes) : Option String :=
  (FaultReport.ofFaults (ofContent file content).2).map FaultReport.message

/-- The rules of several files as one list. -/
def build (directory : Path) (contents : List Bytes) :
    Except String (Path → Bool → Option Verdict) :=
  let rules := contents.flatMap fun content => (ofContent directory content).1
  match CompileFault.find? rules with
  | some fault => .error fault.message
  | none => .ok fun path isDirectory =>
    (RuleList.ofRules directory rules).verdict? path.bytes isDirectory

end IgnoreFile

/-- Whether a walk passes over an entry. A rule that takes it back in also shows a hidden
entry. -/
def RuleStack.rejects (options : IgnoreOptions) (rules : RuleStack) (path : Path)
    (isDirectory : Bool) : Bool :=
  match rules.verdict? path isDirectory with
  | some .ignored => true
  | some .allowed => false
  | none => !options.hidden && path.fileName?.any Walk.isHidden

instance standardHost : Host where
  elapsed _ _ := ⟨0⟩
  compile := Glob.compile
  Scope := RuleStack
  above d options root := RuleStack.start d options.gitIgnore root
  faultsAbove d options root := (RuleStack.start d options.gitIgnore root).faults
  enter d options around directory :=
    around.enter (DirectoryRules.read d options.gitIgnore directory)
  rejects := RuleStack.rejects
  complaint? := IgnoreFile.complaint?
  build := IgnoreFile.build
  refusal? _ _ := none
  pool _ := .ok ()

end Uncomment
