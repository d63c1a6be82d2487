import Uncomment.Strip

/-! Options of a run. -/
namespace Uncomment

/-- Files longer than this are pointed out in reports. -/
def largeFileLines : Nat := 500

structure WalkOptions where
  roots : List Path := []
  recursive : Bool := true
  threads : Nat := 1
  /-- Hidden entries are walked. -/
  hidden : Bool := true
  gitIgnore : Bool := true
  exclude : List String := []
  deriving DecidableEq, Repr

structure Settings where
  walk : WalkOptions := {}
  jobs : Nat
  write : Bool := false
  layout : Layout := .preserve
  /-- Comments that contain one of these texts stay. -/
  keep : List String := []
  timeout : Option Duration := none
  /-- Line count above which a file counts as large. -/
  largeFile : Option Nat := some largeFileLines
  deriving DecidableEq, Repr

namespace Settings

/-- Refuse options with which nothing can run. -/
def validate (s : Settings) : Except Failure Unit :=
  if s.jobs == 0 then .error (.invalidConfiguration "jobs must be at least 1")
  else if s.walk.threads == 0 then
    .error (.invalidConfiguration "walk threads must be at least 1")
  else if s.timeout.any Duration.isZero then
    .error (.invalidConfiguration "timeout must be greater than zero")
  else .ok ()

/-- The roots to process; the working directory when none are given. -/
def roots (s : Settings) : List Path := if s.walk.roots.isEmpty then [Path.here] else s.walk.roots

def isLarge (s : Settings) (lines : Nat) : Bool := s.largeFile.any (· < lines)

def stripOptions (s : Settings) : StripOptions :=
  { layout := s.layout, keep := s.keep.map Bytes.ofText, timeout := s.timeout }

end Settings
end Uncomment
