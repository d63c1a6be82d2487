import Uncomment.Disk

/-! Log lines, and the results of operations that write them and change the disk. -/
namespace Uncomment

inductive LogLevel where
  | debug
  | info
  | warn
  deriving DecidableEq, Repr

def LogLevel.label : LogLevel → String
  | .debug => "DEBUG"
  | .info => "INFO"
  | .warn => "WARN"

structure LogLine where
  level : LogLevel
  text : String
  deriving DecidableEq, Repr

namespace LogLine

def debug (text : String) : LogLine := ⟨.debug, text⟩
def info (text : String) : LogLine := ⟨.info, text⟩
def warn (text : String) : LogLine := ⟨.warn, text⟩

def render (l : LogLine) : String := l.level.label ++ " " ++ l.text

end LogLine

/-- The answer of an operation, the disk after it and the lines it logged. -/
structure Effect (α : Type) where
  value : α
  disk : Disk
  log : List LogLine := []
  deriving DecidableEq, Repr

namespace Effect

def map {α β : Type} (f : α → β) (e : Effect α) : Effect β := ⟨f e.value, e.disk, e.log⟩

/-- Put lines in front of the log. -/
def after {α : Type} (log : List LogLine) (e : Effect α) : Effect α :=
  { e with log := log ++ e.log }

/-- Go on from the answer and the disk of a first operation, unless it failed. -/
def andThen {ε α β : Type} (e : Effect (Except ε α)) (next : α → Disk → Effect (Except ε β)) :
    Effect (Except ε β) :=
  match e.value with
  | .error fault => ⟨.error fault, e.disk, e.log⟩
  | .ok value => (next value e.disk).after e.log

/-- Take the items one by one, each from the disk that the one before it left. The first
failure ends the run. -/
def forEach {ε α β : Type} (step : Disk → α → Effect (Except ε β)) (d : Disk) :
    List α → Effect (Except ε (List β))
  | [] => ⟨.ok [], d, []⟩
  | item :: rest =>
    (step d item).andThen fun value d =>
      (forEach step d rest).map (·.map (value :: ·))

end Effect
end Uncomment
