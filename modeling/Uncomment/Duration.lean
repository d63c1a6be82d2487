import Uncomment.Double

/-!
# Durations

A duration is a whole number of nanoseconds. It is written in the largest unit that leaves
a non-zero whole part, with as many decimals as it needs.
-/
namespace Uncomment

structure Duration where
  nanoseconds : Nat
  deriving DecidableEq, Repr

namespace Duration
open Decimal (padded roundHalfEven tenTo)

def ofSeconds (n : Nat) : Duration := ⟨n * 1000000000⟩

def isZero (d : Duration) : Bool := d.nanoseconds == 0

/-- `n` units of which `10 ^ places` make one, without zeros at the end of the decimals. -/
def decimal (n places : Nat) : String :=
  let decimals := ((padded places (n % tenTo places)).reverse.dropWhile (· == '0')).reverse
  let whole := toString (n / tenTo places)
  if decimals.isEmpty then whole else whole ++ "." ++ String.ofList decimals

def text (d : Duration) : String :=
  let n := d.nanoseconds
  if tenTo 9 ≤ n then decimal n 9 ++ "s"
  else if tenTo 6 ≤ n then decimal n 6 ++ "ms"
  else if tenTo 3 ≤ n then decimal n 3 ++ "µs"
  else toString n ++ "ns"

/-- A number with two decimals. -/
def twoDecimals (x : Double) : String :=
  let hundredths := roundHalfEven (x.ratio.1 * 100) x.ratio.2
  toString (hundredths / 100) ++ "." ++ String.ofList (padded 2 (hundredths % 100))

/-- Milliseconds: seconds and nanoseconds are added as floating point numbers, then scaled. -/
def toMillis (d : Duration) : Double :=
  let perSecond := tenTo 9
  let seconds := (Double.ofNat (d.nanoseconds / perSecond)).add
    ((Double.ofNat (d.nanoseconds % perSecond)).div (Double.ofNat perSecond))
  seconds.mul (Double.ofNat 1000)

def millisText (d : Duration) : String := twoDecimals d.toMillis

end Duration
end Uncomment
