import Uncomment.Glob.Expression
import Uncomment.Ignoring
import Uncomment.Text.Blank

/-!
# Ignore rules

Rules of ignore files. A line is a glob; `!` in front takes files back in, a slash in front
or inside ties the rule to the directory of the file, and a slash at the end restricts it
to directories. The last rule that matches decides.
-/
namespace Uncomment

structure IgnoreRule where
  glob : Glob
  /-- The rule takes files back in. -/
  allows : Bool
  directoryOnly : Bool
  deriving Repr

/-- A line that is no rule. -/
structure RuleFault where
  text : String
  fault : GlobFault
  deriving DecidableEq, Repr

def RuleFault.message (f : RuleFault) : String := Glob.faultText f.text f.fault

namespace IgnoreRule

def endsWith (cs back : List Char) : Bool := back.reverse.isPrefixOf cs.reverse

/-- A rule line cut into its parts. -/
structure Shape where
  body : List Char
  allows : Bool := false
  anchored : Bool := false
  directoryOnly : Bool := false
  deriving DecidableEq, Repr

/-- Take off the marks in front: `!` and a slash, or the backslash that hides `!` or `#`. -/
def Shape.ofLine (line : List Char) : Shape :=
  match line with
  | '\\' :: '!' :: rest => { body := '!' :: rest }
  | '\\' :: '#' :: rest => { body := '#' :: rest }
  | '!' :: '/' :: rest => { body := rest, allows := true, anchored := true }
  | '!' :: rest => { body := rest, allows := true }
  | '/' :: rest => { body := rest, anchored := true }
  | _ => { body := line }

/-- Take off the slash at the end, and the backslash before it. -/
def Shape.cutSlash (s : Shape) : Shape :=
  match s.body.reverse with
  | '/' :: '\\' :: rest => { s with body := rest.reverse, directoryOnly := true }
  | '/' :: rest => { s with body := rest.reverse, directoryOnly := true }
  | _ => s

/-- The glob text: a rule without a slash matches at any depth, and one that ends in a
double star matches what is inside only. -/
def Shape.globText (s : Shape) : List Char :=
  let anywhere := !s.anchored && !s.body.contains '/' && s.body != ['*', '*']
  let text := if anywhere then '*' :: '*' :: '/' :: s.body else s.body
  if endsWith text ['/', '*', '*'] then text ++ ['/', '*'] else text

/-- The line without blanks at its end, unless a backslash keeps the last one. -/
def trimLine (line : List Char) : List Char :=
  if endsWith line ['\\', ' '] then line else Text.trimEndChars line

/-- Read a line. Comments and blank lines are no rules. -/
def parse (line : String) : Except RuleFault (Option IgnoreRule) :=
  match trimLine line.toList with
  | [] | '#' :: _ => .ok none
  | text =>
    let shape := (Shape.ofLine text).cutSlash
    match Glob.parse Glob.lenient (String.ofList shape.globText) with
    | .ok glob => .ok (some ⟨glob, shape.allows, shape.directoryOnly⟩)
    | .error fault => .error ⟨String.ofList text, fault⟩

/-- How a rule is tested. -/
inductive Form where
  /-- Plain text that the base name has to be. -/
  | name
  /-- Plain text that the path, or the end of it, has to be. -/
  | text
  /-- A star with an extension. -/
  | extension
  /-- An expression that ends in an extension, tried on names with that extension. -/
  | guarded
  /-- Any other expression. -/
  | expression
  deriving DecidableEq, Repr

namespace Form

def isLiteral : GlobToken → Bool
  | .literal _ => true
  | _ => false

def isSlash : GlobToken → Bool
  | .literal c => c == '/'
  | _ => false

/-- A character that can follow the dot of an extension. -/
def isExtensionPart : GlobToken → Bool
  | .literal c => c != '.' && c != '/'
  | _ => false

def isTrailing : GlobToken → Bool
  | .trailing => true
  | _ => false

/-- Whether the tokens are a leading double star and a star with an extension. -/
def isStarExtension : List GlobToken → Bool
  | .leading :: .star :: .literal c :: rest => c == '.' && rest.all isExtensionPart
  | _ => false

def endsInExtension (tokens : List GlobToken) : Bool :=
  match tokens.reverse.dropWhile isExtensionPart with
  | .literal c :: _ => c == '.'
  | _ => false

/-- Plain text after a leading double star, in front of a trailing one, or alone. -/
def plain? : List GlobToken → Option Form
  | [] => none
  | .leading :: rest =>
    if rest.isEmpty || !rest.all isLiteral then none
    else if rest.any isSlash then some .text
    else some .name
  | tokens =>
    if tokens.all isLiteral || tokens.getLast?.any isTrailing && tokens.dropLast.all isLiteral
    then some .text
    else none

def ofTokens (tokens : List GlobToken) : Form :=
  match plain? tokens with
  | some form => form
  | none =>
    if isStarExtension tokens then .extension
    else if endsInExtension tokens then .guarded
    else .expression

/-- Whether the test looks at the base name. -/
def looksAtName : Form → Bool
  | .name | .extension | .guarded => true
  | .text | .expression => false

end Form

def form (r : IgnoreRule) : Form := Form.ofTokens r.glob.tokens

/-- Whether a path has no base name because it leads up. -/
def leadsUp (path : Bytes) : Bool :=
  (Bytes.split Ascii.slash path).getLast? == some [Ascii.dot, Ascii.dot]

def accepts (r : IgnoreRule) (path : Bytes) (isDirectory : Bool) : Bool :=
  (!r.directoryOnly || isDirectory) && !(leadsUp path && r.form.looksAtName)
    && r.glob.accepts path

end IgnoreRule

/-- Why rules cannot be used together. -/
inductive CompileFault where
  /-- The expression of one rule is refused. -/
  | single (expression : String)
  /-- Of the expressions that are tried at once, one is refused. -/
  | joint (index : Nat)
  deriving DecidableEq, Repr

namespace CompileFault

def refusal (index : Nat) : String := "error parsing pattern " ++ toString index

def message : CompileFault → String
  | .single expression => "error parsing glob '" ++ expression ++ "': " ++ refusal 0
  | .joint index => refusal index

/-- The first fault in a list of rules. -/
def find? (rules : List IgnoreRule) : Option CompileFault :=
  let ofForm := fun (form : IgnoreRule.Form) => rules.filter (·.form == form)
  (((ofForm .guarded).find? (·.glob.isTooDeep)).map fun r => .single r.glob.expression).or
    (((ofForm .expression).findIdx? (·.glob.isTooDeep)).map .joint)

end CompileFault

/-- Rules with the directory they are tied to. -/
structure RuleList where
  root : Bytes
  rules : List IgnoreRule
  deriving Repr

namespace RuleList

/-- A path without a leading `./`. -/
def bare (p : Bytes) : Bytes := (Bytes.after? [Ascii.dot, Ascii.slash] p).getD p

def ofRules (directory : Path) (rules : List IgnoreRule) : RuleList := ⟨bare directory.bytes, rules⟩

/-- The path as the rules see it: without the text of the root in front, unless the root is
the working directory or the path is a bare name. -/
def view (l : RuleList) (p : Bytes) : Bytes :=
  let p := bare p
  if Path.same ⟨l.root⟩ Path.here || !p.contains Ascii.slash then p
  else match Bytes.after? l.root p with
    | none => p
    | some rest => (Bytes.after? [Ascii.slash] rest).getD rest

/-- The word of the last rule that matches. -/
def verdict? (l : RuleList) (p : Bytes) (isDirectory : Bool) : Option Verdict :=
  (l.rules.reverse.find? fun r => r.accepts (l.view p) isDirectory).map fun r =>
    if r.allows then .allowed else .ignored

end RuleList
end Uncomment
