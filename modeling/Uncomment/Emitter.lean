import Uncomment.Bytes

/-!
# Output layout

The emitter collects what survives of a source. In the `preserve` layout the pieces are
written as they come. In the `compact` layout a line is settled when its line feed is
written: if a comment went missing from it, blanks before the gap at its end go too, and a
line with nothing else on it disappears.
-/
namespace Uncomment

inductive Layout where
  /-- Nothing changes but the removed comments. -/
  | preserve
  /-- Lines that held only comments go, and so do the blanks before a comment at a line's end. -/
  | compact
  deriving DecidableEq, Repr, Inhabited

/-- Output so far: finished lines, the line being written, and what happened on it. -/
structure Emitter where
  layout : Layout
  settled : Array UInt8 := #[]
  line : Array UInt8 := #[]
  /-- A comment was removed on this line. -/
  removal : Bool := false
  /-- The line has something other than white space. -/
  content : Bool := false
  /-- Nothing but white space followed the last removal. -/
  trailing : Bool := false
  deriving DecidableEq, Repr

namespace Emitter
open Ascii

def start (layout : Layout) : Emitter := { layout }

def output (e : Emitter) : Bytes := e.settled.toList ++ e.line.toList

def lastByte? (e : Emitter) : Option UInt8 := e.line.back?.or e.settled.back?

/-- Note that a comment was left out here. -/
def remove (e : Emitter) : Emitter := { e with removal := true, trailing := true }

def isPadding (b : UInt8) : Bool := b == space || b == tab

/-- The current line as it will stand, and whether it is dropped with its line end. -/
def settle (e : Emitter) : Bytes × Bool :=
  if !e.removal then (e.line.toList, false)
  else if !e.content then ([], true)
  else if e.trailing then (Bytes.dropEndWhile isPadding e.line.toList, false)
  else (e.line.toList, false)

/-- Add code that has no line feed. -/
def text (e : Emitter) (bytes : Bytes) : Emitter :=
  if bytes.any (!isSpace ·) then
    { e with line := e.line ++ bytes, content := true, trailing := false }
  else { e with line := e.line ++ bytes }

def endLine (e : Emitter) (terminator : Bytes) : Emitter :=
  { layout := e.layout,
    settled := e.settled ++ e.settle.1 ++ (if e.settle.2 then [] else terminator) }

/-- Add a stretch of code and the line feed after it. A carriage return before the line
feed belongs to the line end. -/
def codeLine (e : Emitter) (bytes : Bytes) : Emitter :=
  if bytes.getLast? == some cr then (e.text bytes.dropLast).endLine [cr, lf]
  else (e.text bytes).endLine [lf]

/-- Add code line by line. -/
def codeLines (e : Emitter) : List Bytes → Emitter
  | [] => e
  | [last] => e.text last
  | line :: rest => (e.codeLine line).codeLines rest

def code (e : Emitter) (bytes : Bytes) : Emitter :=
  match e.layout with
  | .preserve => { e with settled := e.settled ++ bytes }
  | .compact => e.codeLines (Bytes.split lf bytes)

/-- Add a string literal or a comment that stays. Its line feeds do not end the line, but a
gap before the last of them no longer concerns it. -/
def literal (e : Emitter) (bytes : Bytes) : Emitter :=
  match e.layout with
  | .preserve => { e with settled := e.settled ++ bytes }
  | .compact =>
    let tail := (bytes.reverse.takeWhile (· != lf)).reverse
    if tail.length < bytes.length then
      { e with
        settled := e.settled ++ e.line ++ bytes.take (bytes.length - tail.length),
        line := tail.toArray, content := true, trailing := false, removal := false }
    else { e with line := e.line ++ bytes, content := true, trailing := false }

/-- The whole output; the last line is settled too. -/
def finish (e : Emitter) : Bytes :=
  match e.layout with
  | .preserve => e.output
  | .compact => e.settled.toList ++ e.settle.1

end Emitter
end Uncomment
