import Uncomment.IgnoreRule
import Uncomment.Ignoring

/-!
# Ignore files

Reading ignore files from a disk. Lines that are no rules are left out and reported.
-/
namespace Uncomment

inductive IgnoreCause where
  | rule (fault : RuleFault)
  | io (fault : IoFault)
  deriving DecidableEq, Repr

def IgnoreCause.message : IgnoreCause → String
  | .rule fault => fault.message
  | .io fault => fault.message

/-- Why the rules for a directory are not complete. -/
inductive IgnoreFault where
  /-- A line of an ignore file is no rule, or could not be read. -/
  | line (file : Path) (number : Nat) (cause : IgnoreCause)
  /-- A file that tells where rules are could not be read. -/
  | reference (file : Path) (fault : IoFault)
  /-- The rules of a file cannot be used. -/
  | compile (fault : CompileFault)
  deriving DecidableEq, Repr

namespace IgnoreFault

/-- The file with the fault, where it is known. -/
def file? : IgnoreFault → Option Path
  | .line file .. | .reference file _ => some file
  | .compile _ => none

def message : IgnoreFault → String
  | .line file number cause =>
    file.display ++ ": line " ++ toString number ++ ": " ++ cause.message
  | .reference file fault => file.display ++ ": " ++ fault.message
  | .compile fault => fault.message

/-- The file could not be read to its end. -/
def isReading : IgnoreFault → Bool
  | .line _ _ (.io _) => true
  | _ => false

end IgnoreFault

/-- Faults in the groups in which they were found. -/
inductive FaultReport where
  | one (fault : IgnoreFault)
  | group (parts : List FaultReport)
  deriving Repr

namespace FaultReport

/-- A report of several parts. A single part is the report itself. -/
def ofParts : List FaultReport → Option FaultReport
  | [] => none
  | [part] => some part
  | parts => some (.group parts)

def ofFaults (faults : List IgnoreFault) : Option FaultReport := ofParts (faults.map .one)

mutual

def faults : FaultReport → List IgnoreFault
  | .one fault => [fault]
  | .group parts => partsFaults parts

def partsFaults : List FaultReport → List IgnoreFault
  | [] => []
  | part :: more => part.faults ++ partsFaults more

end

/-- One message for all faults, a line each. -/
def message (r : FaultReport) : String := "\n".intercalate (r.faults.map IgnoreFault.message)

end FaultReport

namespace IgnoreFile

/-- Lines of a file. A carriage return before a line feed goes with it. -/
def lines (content : Bytes) : List Bytes :=
  match (Bytes.split Ascii.lf content).reverse with
  | [] => []
  | last :: before =>
    before.reverse.map (fun l => if l.getLast? == some Ascii.cr then l.dropLast else l)
      ++ (if last.isEmpty then [] else [last])

def byteOrderMark : Char := Char.ofNat 0xFEFF

/-- The text without byte order marks in front. -/
def withoutMark (text : String) : String :=
  String.ofList (text.toList.dropWhile (· == byteOrderMark))

/-- Rules and faults of numbered lines. A line that is not UTF-8 ends the reading. -/
def readLines (file : Path) : List (Bytes × Nat) → List IgnoreRule × List IgnoreFault
  | [] => ([], [])
  | (line, n) :: rest =>
    match Utf8.text? line with
    | none => ([], [.line file (n + 1) (.io .notUtf8)])
    | some text =>
      let text := if n == 0 then withoutMark text else text
      let (rules, faults) := readLines file rest
      match IgnoreRule.parse text with
      | .ok none => (rules, faults)
      | .ok (some rule) => (rule :: rules, faults)
      | .error fault => (rules, .line file (n + 1) (.rule fault) :: faults)

/-- Rules and faults of the content of an ignore file. -/
def ofContent (file : Path) (content : Bytes) : List IgnoreRule × List IgnoreFault :=
  readLines file (lines content).zipIdx

/-- Rules and faults of an ignore file. A missing file has neither. -/
def read (d : Disk) (file : Path) : List IgnoreRule × List IgnoreFault :=
  match d.read file with
  | .ok content => ofContent file content
  | .error fault => if d.pathExists file then ([], [.line file 1 (.io fault)]) else ([], [])

end IgnoreFile

end Uncomment
