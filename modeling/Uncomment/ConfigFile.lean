import Uncomment.Disk
import Uncomment.Json.Reader

/-!
# Configuration files

A configuration file is a JSON object with optional keys, or a list of their values in the
order of the keys. Unknown keys are passed over, a known key may stand once.
-/
namespace Uncomment

structure ConfigFile where
  write : Option Bool := none
  noColor : Option Bool := none
  recursive : Option Bool := none
  noWarnLarge : Option Bool := none
  excludePatterns : List String := []
  ignorePatterns : List String := []
  compact : Option Bool := none
  jobs : Option Nat := none
  deriving DecidableEq, Repr

inductive ConfigKey where
  | write
  | noColor
  | recursive
  | noWarnLarge
  | excludePatterns
  | ignorePatterns
  | compact
  | jobs
  deriving DecidableEq, Repr

namespace ConfigKey

def all : List ConfigKey :=
  [.write, .noColor, .recursive, .noWarnLarge, .excludePatterns, .ignorePatterns, .compact, .jobs]

def name : ConfigKey → String
  | .write => "write"
  | .noColor => "noColor"
  | .recursive => "recursive"
  | .noWarnLarge => "noWarnLarge"
  | .excludePatterns => "excludePatterns"
  | .ignorePatterns => "ignorePatterns"
  | .compact => "compact"
  | .jobs => "jobs"

def ofName? (name : String) : Option ConfigKey := all.find? (·.name == name)

end ConfigKey

/-- Why a configuration file cannot be used. -/
inductive ConfigFault where
  | unreadable (path : Path) (fault : IoFault)
  | invalid (path : Path) (fault : JsonFault) (details : String)
  deriving DecidableEq, Repr

namespace ConfigFault

def message : ConfigFault → String
  | .unreadable path _ => "reading config " ++ path.display
  | .invalid path .. => "parsing config " ++ path.display

/-- The message followed by its cause. -/
def chain (f : ConfigFault) : List String :=
  match f with
  | .unreadable _ fault => [f.message, fault.message]
  | .invalid _ _ details => [f.message, details]

/-- What is wrong with a file that could be read. -/
def category? : ConfigFault → Option JsonCategory
  | .unreadable .. => none
  | .invalid _ fault _ => some fault.problem.category

end ConfigFault

namespace ConfigFile

/-- Read the value of a key. -/
def field (c : ConfigFile) : ConfigKey → JsonReader ConfigFile
  | .write => return { c with write := ← Json.optional Json.bool }
  | .noColor => return { c with noColor := ← Json.optional Json.bool }
  | .recursive => return { c with recursive := ← Json.optional Json.bool }
  | .noWarnLarge => return { c with noWarnLarge := ← Json.optional Json.bool }
  | .excludePatterns => return { c with excludePatterns := ← Json.listOf Json.text }
  | .ignorePatterns => return { c with ignorePatterns := ← Json.listOf Json.text }
  | .compact => return { c with compact := ← Json.optional Json.bool }
  | .jobs => return { c with jobs := ← Json.optional (Json.natural "usize") }

/-- Refuse a key that was there before. The fault shows after blanks and the end of the object. -/
def refuseRepeated (key : ConfigKey) : JsonReader ConfigFile := do
  if (← Json.ahead) == some '\x7d' then Json.skip
  Json.fail (.data ("duplicate field `" ++ key.name ++ "`"))

/-- Read the members of an object. -/
def members (c : ConfigFile) (seen : List ConfigKey) (first : Bool) : Nat → JsonReader ConfigFile
  | 0 => return c
  | steps + 1 => do
    if ← Json.hasKey first then
      match ConfigKey.ofName? (← Json.string) with
      | none =>
        Json.colon
        Json.skipValue
        members c seen false steps
      | some key =>
        if seen.contains key then refuseRepeated key
        else
          Json.colon
          members (← c.field key) (key :: seen) false steps
    else
      Json.skip
      return c

/-- Read the values of a list, one for each key. -/
def values (c : ConfigFile) (first : Bool) : List ConfigKey → JsonReader ConfigFile
  | [] => do
    Json.endList
    return c
  | key :: rest => do
    if ← Json.hasElement first then values (← c.field key) false rest
    else
      Json.skip
      return c

def reader : JsonReader ConfigFile := do
  match ← Json.valueAhead with
  | '\x7b' => Json.skip; members {} [] true ((← Json.remaining) + 1)
  | '[' => Json.skip; values {} true ConfigKey.all
  | c => Json.refuse c "struct FileConfig"

def ofBytes (content : Bytes) : Except JsonFault ConfigFile := Json.whole reader content

def load (d : Disk) (path : Path) : Except ConfigFault ConfigFile :=
  match d.read path with
  | .error fault => .error (.unreadable path fault)
  | .ok content =>
    if !Utf8.isValid content then .error (.unreadable path .notUtf8)
    else match ofBytes content with
      | .ok config => .ok config
      | .error fault => .error (.invalid path fault (fault.message content))

/-- The file that is used when none is named. -/
def defaultPath : Path := Path.ofText "commenter.config.json"

/-- Load the named file, or the default file if there is one. -/
def discover (d : Disk) (named : Option Path) : Except ConfigFault (Option ConfigFile) :=
  match named with
  | some path => (load d path).map some
  | none => if d.isFile defaultPath then (load d defaultPath).map some else .ok none

end ConfigFile
end Uncomment
