import Uncomment.Path
import Uncomment.Duration
import Uncomment.SystemError

/-!
# Failures

The causes for which a run or a file can fail, their classification and their wording.
-/
namespace Uncomment

inductive IoKind where
  | notFound
  | permissionDenied
  | alreadyExists
  | invalidInput
  | invalidData
  | other
  deriving DecidableEq, Repr

/-- Why the operating system refused an operation. -/
inductive IoFault where
  /-- An error number of the operating system. -/
  | os (code : Nat)
  | plain (kind : IoKind)
  | custom (kind : IoKind) (text : String)
  deriving DecidableEq, Repr

namespace IoFault

def noEntry : IoFault := .os 2
def notDirectory : IoFault := .os 20
def isDirectory : IoFault := .os 21
def nameTooLong : IoFault := .os 36
def linkLoop : IoFault := .os 40
def notUtf8 : IoFault := .custom .invalidData "stream did not contain valid UTF-8"
def nulByte : IoFault := .custom .invalidInput "file name contained an unexpected NUL byte"

def kindText : IoKind → String
  | .notFound => "entity not found"
  | .permissionDenied => "permission denied"
  | .alreadyExists => "entity already exists"
  | .invalidInput => "invalid input parameter"
  | .invalidData => "invalid data"
  | .other => "other error"

def message : IoFault → String
  | .os n => SystemError.text n ++ " (os error " ++ toString n ++ ")"
  | .plain kind => kindText kind
  | .custom _ text => text

def isNotFound : IoFault → Bool
  | .os n => n == 2
  | .plain kind | .custom kind _ => kind == .notFound

end IoFault

/-- Classification of a failure in reports. -/
inductive FailureKind where
  | pathNotFound
  | unsupportedLanguage
  | io
  | malformedInput
  | writeFailure
  | timeout
  | invalidConfiguration
  deriving DecidableEq, Repr

def FailureKind.label : FailureKind → String
  | .pathNotFound => "PathNotFound"
  | .unsupportedLanguage => "UnsupportedLanguage"
  | .io => "IOError"
  | .malformedInput => "MalformedInput"
  | .writeFailure => "WriteFailure"
  | .timeout => "Timeout"
  | .invalidConfiguration => "InvalidConfiguration"

inductive Failure where
  | context (text : String) (source : Failure)
  | pathNotFound (path : Path)
  | noMatches (pattern : String)
  | unsupportedLanguage (path : Path) (extension : String)
  | fileRead (path : Path) (fault : IoFault)
  | writeFailure (path : Path) (fault : IoFault)
  | walk (path : Path) (details : String)
  | malformedInput (path : Path) (construct : String) (line : Nat)
  | timeout (path : Path) (limit : Duration)
  | invalidPattern (pattern details : String)
  | invalidConfiguration (reason : String)
  | threadPool (details : String)
  deriving DecidableEq, Repr

namespace Failure

def kind : Failure → FailureKind
  | .context _ source => source.kind
  | .pathNotFound _ | .noMatches _ => .pathNotFound
  | .unsupportedLanguage .. => .unsupportedLanguage
  | .fileRead .. | .walk .. => .io
  | .writeFailure .. => .writeFailure
  | .malformedInput .. => .malformedInput
  | .timeout .. => .timeout
  | .invalidPattern .. | .invalidConfiguration _ | .threadPool _ => .invalidConfiguration

def message : Failure → String
  | .context text source => text ++ ": " ++ source.message
  | .pathNotFound path => "path does not exist: " ++ path.display
  | .noMatches pattern => "no files match pattern: " ++ pattern
  | .unsupportedLanguage path extension =>
    "unsupported file type '" ++ extension ++ "': " ++ path.display
  | .fileRead path fault => "Failed to read file '" ++ path.display ++ "': " ++ fault.message
  | .writeFailure path fault => "Failed to write file '" ++ path.display ++ "': " ++ fault.message
  | .walk path details => "Walk error under '" ++ path.display ++ "': " ++ details
  | .malformedInput path construct line =>
    "unterminated " ++ construct ++ " starting at line " ++ toString line
      ++ " in '" ++ path.display ++ "'"
  | .timeout path limit =>
    "processing '" ++ path.display ++ "' exceeded the time limit of " ++ limit.text
  | .invalidPattern pattern details => "Invalid pattern '" ++ pattern ++ "': " ++ details
  | .invalidConfiguration reason => "Invalid configuration: " ++ reason
  | .threadPool details => "Thread pool creation failed: " ++ details

/-- The message followed by the messages of the causes behind it. -/
def chain (f : Failure) : List String :=
  match f with
  | .context _ source => f.message :: source.chain
  | .fileRead _ fault | .writeFailure _ fault => [f.message, fault.message]
  | _ => [f.message]

/-- A file could not be read. A missing file is reported as a missing path. -/
def ofRead (path : Path) (fault : IoFault) : Failure :=
  if fault.isNotFound then .pathNotFound path else .fileRead path fault

end Failure
end Uncomment
