import Uncomment.Glob

/-!
# Matching globs

Matching sweeps over the pattern with the set of positions of the subject that the
pattern read so far can reach. A set is a list of marks, one per position from before the
first byte to after the last, so a match takes one pass over the subject per token.
-/
namespace Uncomment.Glob

/-- One mark per position of a subject. -/
abbrev Marks := List Bool

/-- Only the start is reached. -/
def atStart (s : Bytes) : Marks := true :: s.map fun _ => false

/-- Positions reached by one more byte that satisfies `p`. -/
def advance (p : UInt8 → Bool) (s : Bytes) (marks : Marks) : Marks :=
  false :: List.zipWith (fun b m => m && p b) s marks

/-- Positions reached by any number of bytes that satisfy `p`. -/
def extend (p : UInt8 → Bool) : Bool → Bytes → Marks → Marks
  | _, _, [] => []
  | carry, [], m :: _ => [m || carry]
  | carry, b :: s, m :: marks => (m || carry) :: extend p ((m || carry) && p b) s marks

def union (a b : Marks) : Marks := List.zipWith (· || ·) a b

def anything (_ : UInt8) : Bool := true

def isSlash (b : UInt8) : Bool := b == Ascii.slash

/-- The bytes that a wildcard takes. -/
def wildcard (options : GlobOptions) (b : UInt8) : Bool :=
  !(options.slashIsLiteral && b == Ascii.slash)

/-- The byte ranges of a character range: the bytes of its ends, of which the last one of
the lower end and the first one of the upper end span a range. -/
def byteRanges (range : Char × Char) : List (UInt8 × UInt8) :=
  let low := String.utf8EncodeChar range.1
  let high := String.utf8EncodeChar range.2
  if range.1 == range.2 then low.map fun b => (b, b)
  else
    low.dropLast.map (fun b => (b, b))
      ++ [(low.getLastD 0, high.headD 0)]
      ++ high.tail.map fun b => (b, b)

def classHas (negated : Bool) (ranges : List (Char × Char)) (b : UInt8) : Bool :=
  negated != (ranges.flatMap byteRanges).any fun r => r.1 ≤ b && b ≤ r.2

/-- A branch of which nothing is left once its empty alternatives are dropped. -/
def isVoid : List GlobToken → Bool
  | [] => true
  | .alternates branches :: rest => allVoid branches && isVoid rest
  | _ :: _ => false
where
  allVoid : List (List GlobToken) → Bool
    | [] => true
    | branch :: more => isVoid branch && allVoid more

mutual

/-- Positions reached after one token. -/
def sweepToken (options : GlobOptions) (s : Bytes) (marks : Marks) : GlobToken → Marks
  | .literal c => (String.utf8EncodeChar c).foldl (fun m b => advance (· == b) s m) marks
  | .anyByte => advance (wildcard options) s marks
  | .star => extend (wildcard options) false s marks
  | .leading =>
    union marks (union (advance isSlash s marks)
      (advance isSlash s (extend anything false s marks)))
  | .trailing => extend anything false s (advance isSlash s marks)
  | .between =>
    let below := advance isSlash s marks
    union below (advance isSlash s (extend anything false s below))
  | .oneOf negated ranges => advance (classHas negated ranges) s marks
  | .alternates branches =>
    if isVoid.allVoid branches then marks else sweepBranches options s marks branches

/-- Positions reached after all tokens. -/
def sweep (options : GlobOptions) (s : Bytes) (marks : Marks) : List GlobToken → Marks
  | [] => marks
  | t :: rest => sweep options s (sweepToken options s marks t) rest

/-- Positions reached after some branch. Void branches take no part. -/
def sweepBranches (options : GlobOptions) (s : Bytes) (marks : Marks) :
    List (List GlobToken) → Marks
  | [] => marks.map fun _ => false
  | branch :: more =>
    if isVoid branch then sweepBranches options s marks more
    else union (sweep options s marks branch) (sweepBranches options s marks more)

end

/-- Whether the whole subject fits the glob. A lone double star fits everything. -/
def accepts (g : Glob) (s : Bytes) : Bool :=
  match g.tokens with
  | [.leading] => true
  | tokens => (sweep g.options s (atStart s) tokens).getLast? == some true

end Uncomment.Glob
