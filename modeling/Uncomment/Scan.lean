import Uncomment.Language
import Uncomment.Segment

/-!
# Scanning

`scan` cuts a source into segments. At each position an opener is looked for in the order
embedded comment, block comment, line comment, string literal; a stretch without openers
is code. Every lexeme is described by its extent, the number of bytes it takes, so the
segments concatenate to the input by construction.
-/
namespace Uncomment.Scan

/-- What begins at a position that is not plain code. -/
inductive Opener where
  | line
  | block (delimiter : Delimiter)
  | embedded (delimiter : Delimiter)
  | quoted (quote : Quote)
  deriving DecidableEq, Repr

def Opener.kind : Opener → SegmentKind
  | .line => .lineComment
  | .block _ => .blockComment
  | .embedded _ => .embeddedComment
  | .quoted _ => .stringLiteral

/-- Whether the first inner end (the closing token without its last byte) is followed by
that last byte. -/
def closesEmbedded (closing body : Bytes) : Bool :=
  match closing.getLast? with
  | none => false
  | some last =>
    match Bytes.indexOf? closing.dropLast body with
    | none => false
    | some i => body[i + (closing.length - 1)]? == some last

def embedded? (lang : Language) (s : Bytes) : Option Delimiter :=
  lang.embedded.filter fun d =>
    d.opening.isPrefixOf s && closesEmbedded d.closing (s.drop d.opening.length)

/-- The opener at the head of `s`. -/
def opener? (lang : Language) (s : Bytes) : Option Opener :=
  match embedded? lang s with
  | some d => some (.embedded d)
  | none =>
    match lang.blocks.find? fun d => d.opening.isPrefixOf s with
    | some d => some (.block d)
    | none =>
      if lang.lineMarkers.any (·.isPrefixOf s) then some .line
      else s.head?.bind fun b => (lang.quotes.find? (·.mark == b)).map .quoted

/-- How many bytes a lexeme takes, and whether it reached its end. -/
structure Extent where
  length : Nat
  terminated : Bool
  deriving DecidableEq, Repr

def Extent.grow (n : Nat) (e : Extent) : Extent := { e with length := e.length + n }

/-- A line comment stops before the line end. -/
def lineExtent (s : Bytes) : Extent := ⟨(s.takeWhile (!Ascii.isLineEnd ·)).length, true⟩

/-- A bracketed comment stops after the first closing token. -/
def blockExtent (d : Delimiter) (s : Bytes) : Extent :=
  match Bytes.indexOf? d.closing (s.drop d.opening.length) with
  | some i => ⟨d.opening.length + i + d.closing.length, true⟩
  | none => ⟨s.length, false⟩

/-- Extent of a literal after its opening mark: an escape takes the next byte with it, the
mark closes, and a single-line literal gives up before a line end. -/
def literalExtent (q : Quote) : Bytes → Extent
  | [] => ⟨0, false⟩
  | b :: rest =>
    if q.escape = some b then
      match rest with
      | [] => ⟨1, false⟩
      | _ :: rest => (literalExtent q rest).grow 2
    else if b == q.mark then ⟨1, true⟩
    else if !q.multiline && Ascii.isLineEnd b then ⟨0, true⟩
    else (literalExtent q rest).grow 1

/-- Number of bytes before the next opener. Only a byte that can begin an opener is tested. -/
def codeLength (lang : Language) : Bytes → Nat
  | [] => 0
  | b :: rest =>
    if lang.mayOpen b && (opener? lang (b :: rest)).isSome then 0
    else codeLength lang rest + 1

def Opener.extent (o : Opener) (s : Bytes) : Extent :=
  match o with
  | .line => lineExtent s
  | .block d | .embedded d => blockExtent d s
  | .quoted q => (literalExtent q (s.drop 1)).grow 1

/-- Kind and extent of the lexeme at the head of `s`. -/
def head (lang : Language) (s : Bytes) : SegmentKind × Extent :=
  match opener? lang s with
  | some o => (o.kind, o.extent s)
  | none => (.code, ⟨codeLength lang s, true⟩)

/-- The lexemes of a source. A profile whose openers take no byte is cut short: the scan
ends with the lexeme that makes no progress. -/
def lexemes (lang : Language) : Bytes → List Lexeme
  | [] => []
  | b :: rest =>
    let kind := (head lang (b :: rest)).1
    let extent := (head lang (b :: rest)).2
    match extent.length with
    | 0 => [⟨kind, [], extent.terminated⟩]
    | n + 1 => ⟨kind, b :: rest.take n, extent.terminated⟩ :: lexemes lang (rest.drop n)
termination_by s => s.length
decreasing_by simp only [List.length_drop, List.length_cons]; omega

end Uncomment.Scan

namespace Uncomment

/-- The segments of a source. -/
def scan (lang : Language) (s : Bytes) : List Segment := Segment.placeAll 0 1 (Scan.lexemes lang s)

end Uncomment
