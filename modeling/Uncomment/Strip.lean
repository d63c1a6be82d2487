import Uncomment.Emitter
import Uncomment.Failure
import Uncomment.Scan
import Uncomment.Text.Blank

/-!
# Comment removal

`strip` takes the comments out of a source. Comments that contain a protected text stay,
and so does the last comment of a run whose removal would let the bytes around it meet as
the start of a new comment.
-/
namespace Uncomment

/-- A comment that was taken out: its first line and its trimmed text. -/
structure RemovedComment where
  line : Nat
  text : String
  deriving DecidableEq, Repr

def RemovedComment.of (line : Nat) (text : String) : RemovedComment := ⟨line, Text.trim text⟩

/-- A construct that the end of the input cut off. -/
structure Malformed where
  construct : SegmentKind
  line : Nat
  deriving DecidableEq, Repr

def Malformed.describe (m : Malformed) (path : Path) : String :=
  (Failure.malformedInput path m.construct.label m.line).message

structure StripOptions where
  layout : Layout := .preserve
  /-- Comments that contain one of these texts stay. -/
  keep : List Bytes := []
  timeout : Option Duration := none
  deriving DecidableEq, Repr

structure StripOutcome where
  output : Bytes
  removed : List RemovedComment
  malformed : Option Malformed
  /-- First lines of the comments that stay so that no new comment forms. -/
  glued : List Nat
  deriving DecidableEq, Repr

/-- The clock of a run. -/
class Clock where
  /-- The time that the work on a file has taken when its `n`th segment is looked at. -/
  elapsed : (path : Path) → (n : Nat) → Duration

namespace Strip

/-- Byte pairs that open a comment when they meet. -/
def gluePairs (lang : Language) : List (UInt8 × UInt8) :=
  (lang.lineMarkers ++ lang.blocks.map Delimiter.opening).filterMap fun
    | [a, b] => some (a, b)
    | _ => none

/-- Whether a segment holds a protected text. An empty text protects nothing. -/
def isProtected (keep : List Bytes) (bytes : Bytes) : Bool :=
  keep.any fun text => !text.isEmpty && Bytes.includes bytes text

def removes (options : StripOptions) (s : Segment) : Bool :=
  s.isComment && !isProtected options.keep s.bytes

/-- Work in progress: the output, the comments whose fate is open, and the notes so far. The
lists have their last member first. -/
structure Progress where
  emitter : Emitter
  pending : List Segment := []
  removed : List RemovedComment := []
  malformed : Option Malformed := none
  glued : List Nat := []
  deriving DecidableEq, Repr

namespace Progress

def start (layout : Layout) : Progress := { emitter := .start layout }

/-- Whether the last byte written and the byte to come would open a comment together. -/
def joins (lang : Language) (e : Emitter) (next : Option UInt8) : Bool :=
  match e.lastByte?, next with
  | some a, some b => (gluePairs lang).contains (a, b)
  | _, _ => false

def dropComment (p : Progress) (s : Segment) : Progress :=
  { p with
    emitter := p.emitter.remove,
    removed := RemovedComment.of s.startLine s.text :: p.removed }

def keepComment (p : Progress) (s : Segment) : Progress :=
  { p with emitter := p.emitter.literal s.bytes, glued := s.startLine :: p.glued }

/-- Decide about the pending comments, knowing the byte that comes next. -/
def flush (lang : Language) (p : Progress) (next : Option UInt8) : Progress :=
  let rest := { p with pending := [] }
  if joins lang p.emitter next then
    match p.pending with
    | [] => rest
    | last :: before => (before.reverse.foldl dropComment rest).keepComment last
  else p.pending.reverse.foldl dropComment rest

def write (p : Progress) (s : Segment) : Progress :=
  match s.kind with
  | .code => { p with emitter := p.emitter.code s.bytes }
  | _ => { p with emitter := p.emitter.literal s.bytes }

def note (p : Progress) (s : Segment) : Progress :=
  { p with
    malformed := p.malformed.or
      (if s.terminated then none else some ⟨s.kind, s.startLine⟩) }

def step (lang : Language) (options : StripOptions) (p : Progress) (s : Segment) : Progress :=
  let p := p.note s
  if removes options s then { p with pending := s :: p.pending }
  else (p.flush lang s.bytes.head?).write s

def outcome (lang : Language) (p : Progress) : StripOutcome :=
  let p := p.flush lang none
  ⟨p.emitter.finish, p.removed.reverse, p.malformed, p.glued.reverse⟩

end Progress

/-- The outcome for a given sequence of segments. -/
def segments (lang : Language) (options : StripOptions) (ss : List Segment) : StripOutcome :=
  (ss.foldl (Progress.step lang options) (.start options.layout)).outcome lang

/-- The clock is read at every segment whose number is a multiple of this one. -/
def checkInterval : Nat := 4096

variable [Clock]

/-- The first segment at which the time is found to be up, with the limit that is exceeded. -/
def expiry? (options : StripOptions) (path : Path) (ss : List Segment) :
    Option (Duration × Nat) :=
  options.timeout.bind fun limit =>
    ((List.range ss.length).find? fun n =>
      n % checkInterval == 0
        && limit.nanoseconds ≤ (Clock.elapsed path n).nanoseconds).map (limit, ·)

/-- Strip given segments of the file `path` under a time limit. -/
def timed (lang : Language) (options : StripOptions) (path : Path) (ss : List Segment) :
    Except Failure StripOutcome :=
  match expiry? options path ss with
  | some (limit, _) => .error (.timeout path limit)
  | none => .ok (segments lang options ss)

/-- First lines of the comments that stayed when the time was up. -/
def gluedInTime (lang : Language) (options : StripOptions) (path : Path) (ss : List Segment) :
    List Nat :=
  match expiry? options path ss with
  | some (_, n) =>
    ((ss.take n).foldl (Progress.step lang options) (.start options.layout)).glued.reverse
  | none => []

end Strip

/-- Take the comments out of a source. -/
def strip (lang : Language) (options : StripOptions) (s : Bytes) : StripOutcome :=
  Strip.segments lang options (scan lang s)

/-- Take the comments out of the file `path`, whose content is `s`. -/
def stripFile [Clock] (lang : Language) (options : StripOptions) (path : Path) (s : Bytes) :
    Except Failure StripOutcome :=
  Strip.timed lang options path (scan lang s)

/-- The debug line for a comment that stayed to keep tokens apart. -/
def glueNote (path : Path) (line : Nat) : String :=
  path.display ++ ":" ++ toString line ++ ": keeping comment to avoid joining tokens"

namespace StripOutcome

def commentsRemoved (o : StripOutcome) : Nat := o.removed.length

/-- Debug lines for the comments that stayed to keep tokens apart. -/
def notes (o : StripOutcome) (path : Path) : List String := o.glued.map (glueNote path)

end StripOutcome
end Uncomment
