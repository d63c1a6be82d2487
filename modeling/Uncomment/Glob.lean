import Uncomment.Bytes

/-!
# Glob patterns

The syntax tree of a glob and its reading. A `**` is special only as a whole component:
at the start it stands for any leading directories, at the end for everything below, and
between slashes for any directories. Braces hold alternatives and may nest.
-/
namespace Uncomment

inductive GlobToken where
  | literal (c : Char)
  /-- Any single byte. -/
  | anyByte
  /-- Any run of bytes. -/
  | star
  /-- A double star in front, with the slash after it. -/
  | leading
  /-- A double star at the end, with the slash before it. -/
  | trailing
  /-- A double star between slashes. -/
  | between
  | oneOf (negated : Bool) (ranges : List (Char × Char))
  | alternates (branches : List (List GlobToken))
  deriving Repr

/-- Why a text is not a glob. -/
inductive GlobFault where
  | unclosedClass
  | invalidRange (low high : Char)
  | unopenedGroup
  | unclosedGroup
  | danglingEscape
  deriving DecidableEq, Repr

def GlobFault.message : GlobFault → String
  | .unclosedClass => "unclosed character class; missing ']'"
  | .invalidRange low high =>
    "invalid range; '" ++ String.singleton low ++ "' > '" ++ String.singleton high ++ "'"
  | .unopenedGroup =>
    "unopened alternate group; missing '\x7b' (maybe escape '\x7d' with '[\x7d]'?)"
  | .unclosedGroup =>
    "unclosed alternate group; missing '\x7d' (maybe escape '\x7b' with '[\x7b]'?)"
  | .danglingEscape => "dangling '\\'"

structure GlobOptions where
  /-- `*`, `?` and `**` inside a component stop at a slash. -/
  slashIsLiteral : Bool
  /-- A `[` without its `]` stands for itself. -/
  bracketMayStand : Bool
  deriving DecidableEq, Repr

structure Glob where
  options : GlobOptions
  tokens : List GlobToken
  deriving Repr

namespace Glob

/-! ## Character classes -/

/-- A class being read: its ranges, last one first, and whether a dash waits for its end. -/
structure ClassState where
  ranges : List (Char × Char) := []
  dash : Bool := false

def ClassState.extend (st : ClassState) (c : Char) : Except GlobFault ClassState :=
  match st.dash, st.ranges with
  | true, (low, _) :: rest =>
    if c < low then .error (.invalidRange low c) else .ok ⟨(low, c) :: rest, false⟩
  | _, ranges => .ok ⟨(c, c) :: ranges, false⟩

def ClassState.close (st : ClassState) : List (Char × Char) :=
  (if st.dash then ('-', '-') :: st.ranges else st.ranges).reverse

/-- The ranges up to the closing bracket and the number of characters read; nothing when
the bracket is missing. A bracket or dash in first place stands for itself. -/
def classRanges (first : Bool) (st : ClassState) (count : Nat) :
    List Char → Except GlobFault (Option (List (Char × Char) × Nat))
  | [] => .ok none
  | c :: rest =>
    if c == ']' && !first then .ok (some (st.close, count + 1))
    else if c == '-' && !first && !st.dash then
      classRanges false { st with dash := true } (count + 1) rest
    else match st.extend c with
      | .error fault => .error fault
      | .ok st => classRanges false st (count + 1) rest

/-- A class after its opening bracket: negated or not, its ranges, and its length. -/
def readClass : List Char → Except GlobFault (Option (Bool × List (Char × Char) × Nat))
  | c :: rest =>
    if c == '!' || c == '^' then
      (classRanges true {} 1 rest).map (·.map fun r => (true, r))
    else (classRanges true {} 0 (c :: rest)).map (·.map fun r => (false, r))
  | [] => .ok none

/-! ## Reading -/

/-- A group that is still open: its finished branches and the tokens before it, both last
one first. -/
structure OpenGroup where
  branches : List (List GlobToken)
  outer : List GlobToken

/-- Reader state: the tokens of the current branch, last one first, the open groups from
the inside out, the character read last, and whether brackets are plain by now. -/
structure Reader where
  current : List GlobToken := []
  groups : List OpenGroup := []
  previous : Option Char := none
  plainBracket : Bool := false

namespace Reader

def push (r : Reader) (t : GlobToken) (c : Char) : Reader :=
  { r with current := t :: r.current, previous := some c }

/-- Two stars that are not a whole component. -/
def pushStars (r : Reader) : Reader := (r.push .star '*').push .star '*'

def inGroup (r : Reader) : Bool := !r.groups.isEmpty

def openGroup (r : Reader) : Reader :=
  { r with current := [], groups := ⟨[], r.current⟩ :: r.groups, previous := some '\x7b' }

def closeGroup (r : Reader) : Except GlobFault Reader :=
  match r.groups with
  | [] => .error .unopenedGroup
  | g :: rest =>
    let branches := (r.current.reverse :: g.branches).reverse
    .ok { r with
      current := .alternates branches :: g.outer, groups := rest, previous := some '\x7d' }

def comma (r : Reader) : Reader :=
  match r.groups with
  | [] => r.push (.literal ',') ','
  | g :: rest =>
    { r with
      current := [], groups := ⟨r.current.reverse :: g.branches, g.outer⟩ :: rest,
      previous := some ',' }

/-- Whether a double star here begins a component. -/
def beginsComponent (r : Reader) : Bool :=
  r.previous == some '/' || (r.inGroup && (r.previous == some ',' || r.previous == some '\x7b'))

/-- Put a double star in the place of the slash before it. Double stars in a row are one. -/
def pushDouble (r : Reader) (t : GlobToken) (c : Char) : Reader :=
  let current := match r.current with
    | .leading :: rest => .leading :: rest
    | .trailing :: rest => .trailing :: rest
    | _ :: rest => t :: rest
    | [] => [t]
  { r with current, previous := some c }

/-- Read a double star that `rest` follows. Gives the state and how many characters of
`rest` belong to it. -/
def doubleStar (r : Reader) (rest : List Char) : Reader × Nat :=
  let next := rest.head?
  if r.current.isEmpty then
    match next with
    | none => (r.push .leading '*', 0)
    | some '/' => (r.push .leading '/', 1)
    | some _ => (r.pushStars, 0)
  else if !r.beginsComponent then (r.pushStars, 0)
  else match next with
    | none => (r.pushDouble .trailing '*', 0)
    | some '/' => (r.pushDouble .between '/', 1)
    | some c =>
      if r.inGroup && (c == ',' || c == '\x7d') then (r.pushDouble .trailing '*', 0)
      else (r.pushStars, 0)

/-- Read the character `c`, which `rest` follows. Gives the state and how many characters
of `rest` belong to it. -/
def step (options : GlobOptions) (r : Reader) (c : Char) (rest : List Char) :
    Except GlobFault (Reader × Nat) :=
  match c with
  | '?' => .ok (r.push .anyByte c, 0)
  | '*' =>
    if rest.head? == some '*' then
      let (r, n) := r.doubleStar (rest.drop 1)
      .ok (r, n + 1)
    else .ok (r.push .star c, 0)
  | '[' =>
    if r.plainBracket then .ok (r.push (.literal c) c, 0)
    else match readClass rest with
      | .error fault => .error fault
      | .ok (some (negated, ranges, n)) => .ok (r.push (.oneOf negated ranges) ']', n)
      | .ok none =>
        if options.bracketMayStand then
          .ok ({ r.push (.literal c) c with plainBracket := true }, 0)
        else .error .unclosedClass
  | '\x7b' => .ok (r.openGroup, 0)
  | '\x7d' => r.closeGroup.map (·, 0)
  | ',' => .ok (r.comma, 0)
  | '\\' =>
    match rest with
    | [] => .error .danglingEscape
    | e :: _ => .ok (r.push (.literal e) e, 1)
  | c => .ok (r.push (.literal c) c, 0)

def finish (r : Reader) : Except GlobFault (List GlobToken) :=
  if r.inGroup then .error .unclosedGroup else .ok r.current.reverse

def read (options : GlobOptions) (r : Reader) : List Char → Except GlobFault (List GlobToken)
  | [] => r.finish
  | c :: rest =>
    match r.step options c rest with
    | .error fault => .error fault
    | .ok (r, n) => read options r (rest.drop n)
termination_by cs => cs.length
decreasing_by simp only [List.length_drop, List.length_cons]; omega

end Reader

/-- Read a glob. -/
def parse (options : GlobOptions) (text : String) : Except GlobFault Glob :=
  (Reader.read options {} text.toList).map fun tokens => { options, tokens }

/-- Wildcards stop at slashes, and a bracket must be closed. -/
def strict : GlobOptions := ⟨true, false⟩

/-- Wildcards stop at slashes, and an unclosed bracket stands for itself. -/
def lenient : GlobOptions := ⟨true, true⟩

/-- The message for a text that is not a glob. -/
def faultText (text : String) (fault : GlobFault) : String :=
  "error parsing glob '" ++ text ++ "': " ++ fault.message

end Glob
end Uncomment
