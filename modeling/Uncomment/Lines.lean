import Uncomment.Bytes

/-! Line counts of a source before and after stripping. -/
namespace Uncomment

/-- Number of lines: the line feeds, and one more for an unfinished last line. -/
def lineCount (s : Bytes) : Nat :=
  match s.getLast? with
  | none => 0
  | some b => s.count Ascii.lf + (if b == Ascii.lf then 0 else 1)

structure LineStats where
  input : Nat
  output : Nat
  deriving DecidableEq, Repr

def LineStats.of (input output : Bytes) : LineStats := ⟨lineCount input, lineCount output⟩

end Uncomment
