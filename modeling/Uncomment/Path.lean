import Uncomment.Language
import Uncomment.Text.Utf8

/-!
# Paths

A path is a byte string cut at slashes. Empty parts and `.` parts count for nothing,
except a leading `.`; what stands between them is a component. Operations that shorten a
path keep the remaining text as it is written.
-/
namespace Uncomment

structure Path where
  bytes : Bytes
  deriving DecidableEq, Repr

inductive Component where
  | root
  | here
  | up
  | name (bytes : Bytes)
  deriving DecidableEq, Repr

namespace Component

def rank : Component → Nat
  | .root => 0
  | .here => 1
  | .up => 2
  | .name _ => 3

def bytes : Component → Bytes
  | .root => [Ascii.slash]
  | .here => [Ascii.dot]
  | .up => [Ascii.dot, Ascii.dot]
  | .name b => b

/-- The root comes first, then `.`, then `..`, then names in byte order. -/
def compare : Component → Component → Ordering
  | .name a, .name b => Bytes.compare a b
  | a, b => if a.rank < b.rank then .lt else if b.rank < a.rank then .gt else .eq

end Component

namespace Path

def ofText (s : String) : Path := ⟨Bytes.ofText s⟩

def here : Path := ⟨[Ascii.dot]⟩

/-- The path as text, with replacement characters where it is not UTF-8. -/
def display (p : Path) : String := Utf8.lossy p.bytes

def isEmpty (p : Path) : Bool := p.bytes.isEmpty

def isAbsolute (p : Path) : Bool := p.bytes.head? == some Ascii.slash

/-- The component spelt by the first byte alone: the root, or a leading `.`. -/
def lead (p : Path) : Option Component :=
  match p.bytes with
  | [] => none
  | b :: rest =>
    if b == Ascii.slash then some .root
    else if b == Ascii.dot && (rest.isEmpty || rest.head? == some Ascii.slash) then some .here
    else none

/-- Slash-separated parts after the lead. -/
def parts (p : Path) : List Bytes :=
  Bytes.split Ascii.slash (if p.lead.isSome then p.bytes.drop 1 else p.bytes)

def isFiller (part : Bytes) : Bool := part == [] || part == [Ascii.dot]

def partComponent (part : Bytes) : Component :=
  if part == [Ascii.dot, Ascii.dot] then .up else .name part

def components (p : Path) : List Component :=
  p.lead.toList ++ (p.parts.filter (!isFiller ·)).map partComponent

/-- A path with the lead `l` and the given parts, as written apart from fillers at the end. -/
def assemble (l : Option Component) (parts : List Bytes) : Path :=
  ⟨(l.map Component.bytes).getD [] ++ Bytes.join Ascii.slash (Bytes.dropEndWhile isFiller parts)⟩

/-- The last component, when it is a name. -/
def fileName? (p : Path) : Option Bytes :=
  match p.components.getLast? with
  | some (.name b) => some b
  | _ => none

/-- What follows the last dot of a file name that has something before that dot. -/
def extension? (p : Path) : Option Bytes :=
  p.fileName?.bind fun name =>
    let ending := (name.reverse.takeWhile (· != Ascii.dot)).reverse
    if ending.length + 1 < name.length then some ending else none

/-- The path without its last component. The root and the empty path have no parent. -/
def parent? (p : Path) : Option Path :=
  match Bytes.dropEndWhile isFiller p.parts with
  | [] => if p.lead == some .here then some ⟨[]⟩ else none
  | kept => some (assemble p.lead kept.dropLast)

/-- The directory a path stands in: its parent, or `.` for a bare name. -/
def directory (p : Path) : Path := (p.parent?.filter (!·.isEmpty)).getD here

/-- Drop `n` components from a list of parts, with the fillers around them. -/
def dropParts : Nat → List Bytes → List Bytes
  | _, [] => []
  | n, part :: rest =>
    if isFiller part then dropParts n rest
    else match n with
      | 0 => part :: rest
      | n + 1 => dropParts n rest

/-- The path below `base`, when the components of `base` come first in it. -/
def relativeTo? (base p : Path) : Option Path :=
  let n := base.components.length
  if base.components.isPrefixOf p.components then
    match n with
    | 0 => some (assemble p.lead p.parts)
    | n + 1 => some (assemble none (dropParts (if p.lead.isSome then n else n + 1) p.parts))
  else none

/-- `q` seen from the directory `p`. -/
def join (p q : Path) : Path :=
  if q.isAbsolute then q
  else if p.isEmpty || p.bytes.getLast? == some Ascii.slash then ⟨p.bytes ++ q.bytes⟩
  else ⟨p.bytes ++ Ascii.slash :: q.bytes⟩

/-- Component-wise order. -/
def compare (p q : Path) : Ordering := Bytes.lexCompare Component.compare p.components q.components

def le (p q : Path) : Bool := compare p q != .gt

/-- Two spellings of one sequence of components. -/
def same (p q : Path) : Bool := p.components == q.components

/-- The language that the extension selects. -/
def language? (p : Path) : Option Language :=
  (p.extension?.bind Utf8.text?).bind Language.ofExtension?

end Path
end Uncomment
