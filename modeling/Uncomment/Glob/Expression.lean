import Uncomment.Glob.Matching

/-!
# Globs as regular expressions

A glob stands for a regular expression over bytes. Its text shows in messages, and it is
usable only while its parts do not nest too deep.
-/
namespace Uncomment.Glob

/-! ## Text -/

/-- Characters that a backslash makes stand for themselves. -/
def isSpecial (c : Char) : Bool :=
  ['\\', '.', '+', '*', '?', '(', ')', '|', '[', ']', '\x7b', '\x7d', '^', '$', '#', '&', '-',
    '~'].contains c

/-- A byte of a literal; beyond ASCII it is spelt with two hexadecimal digits. -/
def byteText (b : UInt8) : List Char :=
  if b < 0x80 then
    let c := Char.ofNat b.toNat
    if isSpecial c then ['\\', c] else [c]
  else '\\' :: 'x' :: Nat.toDigits 16 b.toNat

def literalText (c : Char) : List Char := (String.utf8EncodeChar c).flatMap byteText

def rangeText (range : Char × Char) : List Char :=
  if range.1 == range.2 then literalText range.1
  else literalText range.1 ++ '-' :: literalText range.2

mutual

def tokenText (options : GlobOptions) : GlobToken → List Char
  | .literal c => literalText c
  | .anyByte => (if options.slashIsLiteral then "[^/]" else ".").toList
  | .star => (if options.slashIsLiteral then "[^/]*" else ".*").toList
  | .leading => "(?:/?|.*/)".toList
  | .trailing => "/.*".toList
  | .between => "(?:/|/.*/)".toList
  | .oneOf negated ranges =>
    '[' :: (if negated then ['^'] else []) ++ ranges.flatMap rangeText ++ [']']
  | .alternates branches =>
    if isVoid.allVoid branches then []
    else "(?:".toList ++ List.intercalate ['|'] (branchTexts options branches) ++ [')']

def tokensText (options : GlobOptions) : List GlobToken → List Char
  | [] => []
  | t :: rest => tokenText options t ++ tokensText options rest

/-- The texts of the branches that are not void. -/
def branchTexts (options : GlobOptions) : List (List GlobToken) → List (List Char)
  | [] => []
  | branch :: more =>
    if isVoid branch then branchTexts options more
    else tokensText options branch :: branchTexts options more

end

/-- The regular expression of a glob. -/
def expression (g : Glob) : String :=
  let body := match g.tokens with
    | [.leading] => ".*".toList
    | tokens => tokensText g.options tokens
  String.ofList ("(?-u)^".toList ++ body ++ ['$'])

/-! ## Nesting -/

/-- The depth of parts put together: a single part needs no layer of its own. -/
def layered : List Nat → Nat
  | [] => 0
  | [n] => n
  | depths => depths.foldl max 0 + 1

mutual

/-- The depths of the parts that a token adds to the sequence it stands in. Repetitions,
groups, alternatives, sequences and classes are a layer each. -/
def tokenDepths (options : GlobOptions) : GlobToken → List Nat
  | .literal c => (String.utf8EncodeChar c).map fun _ => 0
  | .anyByte => [if options.slashIsLiteral then 1 else 0]
  | .star => [if options.slashIsLiteral then 2 else 1]
  | .leading | .between => [4]
  | .trailing => [0, 1]
  | .oneOf _ ranges => [layered ((ranges.flatMap byteRanges).map fun _ => 0) + 1]
  | .alternates branches =>
    if isVoid.allVoid branches then [] else [layered (branchDepths options branches) + 1]

def tokensDepths (options : GlobOptions) : List GlobToken → List Nat
  | [] => []
  | t :: rest => tokenDepths options t ++ tokensDepths options rest

/-- The depths of the branches that are not void. -/
def branchDepths (options : GlobOptions) : List (List GlobToken) → List Nat
  | [] => []
  | branch :: more =>
    if isVoid branch then branchDepths options more
    else layered (tokensDepths options branch) :: branchDepths options more

end

/-- The depth of the whole expression, which is a sequence between its two ends. -/
def depth (g : Glob) : Nat := (tokensDepths g.options g.tokens).foldl max 0 + 1

/-- The greatest depth of a usable expression. -/
def depthLimit : Nat := 250

def isTooDeep (g : Glob) : Bool := depthLimit < g.depth

end Uncomment.Glob
