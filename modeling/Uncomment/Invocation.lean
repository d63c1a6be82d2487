import Uncomment.Arguments
import Uncomment.ConfigFile
import Uncomment.Settings

/-!
# Invocations

What the command line and the configuration file together ask for. The command line wins;
a list of the file counts only when the command line has none.
-/
namespace Uncomment

structure Invocation where
  target : Path
  colour : Bool
  settings : Settings
  deriving DecidableEq, Repr

namespace Invocation

def pickList (fromLine fromFile : List String) : List String :=
  let fromLine := Arguments.trimmed fromLine
  if fromLine.isEmpty then Arguments.trimmed fromFile else fromLine

/-- The number of jobs that was asked for. -/
def jobs? (args : Arguments) (file : ConfigFile) : Option Nat := args.jobs.or file.jobs

/-- More threads than this are not used for walking. -/
def threadLimit : Nat := 12

/-- Combine command line and file; `processors` is the default number of jobs. -/
def merge (args : Arguments) (file : ConfigFile) (processors : Nat) : Invocation :=
  let jobs := (jobs? args file).getD processors
  let noWarnLarge := args.noWarnLarge || file.noWarnLarge.getD false
  { target := Path.ofText args.path
    colour := !(args.noColor || file.noColor.getD false)
    settings := {
      walk := {
        roots := [Path.ofText args.path]
        recursive := (args.recursion.or file.recursive).getD true
        threads := max 1 (min jobs threadLimit)
        hidden := !args.noHidden
        gitIgnore := !args.noGitignore
        exclude := pickList args.exclude file.excludePatterns }
      jobs
      write := args.write || file.write.getD false
      layout := if args.compact || file.compact.getD false then .compact else .preserve
      keep := pickList args.ignorePattern file.ignorePatterns
      timeout := args.timeout.map Duration.ofSeconds
      largeFile := if noWarnLarge then none else some largeFileLines } }

/-- The configuration file that the arguments lead to. -/
def configFile (d : Disk) (args : Arguments) : Except ConfigFault ConfigFile :=
  (ConfigFile.discover d (args.config.map Path.ofText)).map (·.getD {})

def ofArguments (d : Disk) (args : Arguments) (processors : Nat) : Except ConfigFault Invocation :=
  (configFile d args).map fun file => merge args file processors

end Invocation
end Uncomment
