import Uncomment.Decimal

/-!
# Floating point numbers

Non-negative numbers with 53 significant bits, in exact integer arithmetic: rounding of a
quotient, product and quotient with powers of ten, and the shortest decimal that reads back.
-/
namespace Uncomment

/-- The number `mantissa * 2 ^ exponent`. The mantissa has 53 bits, or fewer at the least
exponent. -/
structure Double where
  mantissa : Nat
  exponent : Int
  deriving DecidableEq, Repr

namespace Double
open Decimal (tenTo twoTo)

def leastExponent : Int := -1074

def greatestExponent : Int := 971

def isZero (x : Double) : Bool := x.mantissa == 0

/-- Beyond the largest number. -/
def isInfinite (x : Double) : Bool := greatestExponent < x.exponent

/-- The fraction `num / den * 2 ^ -e`. -/
def scale (num den : Nat) (e : Int) : Nat × Nat :=
  if 0 ≤ e then (num, den * twoTo e.toNat) else (num * twoTo (-e).toNat, den)

/-- The number next to `num / den`, a half going to the even mantissa. -/
def ofRatio (num den : Nat) : Double :=
  if num == 0 then ⟨0, leastExponent⟩
  else
    let guess : Int := (num.log2 : Int) - den.log2 - 53
    let (n, m) := scale num den guess
    let exponent := max (if twoTo 53 ≤ n / m then guess + 1 else guess) leastExponent
    let (n, m) := scale num den exponent
    let mantissa := Decimal.roundHalfEven n m
    if mantissa == twoTo 53 then ⟨twoTo 52, exponent + 1⟩ else ⟨mantissa, exponent⟩

def ofNat (n : Nat) : Double := ofRatio n 1

/-- The value as a fraction. -/
def ratio (x : Double) : Nat × Nat :=
  if 0 ≤ x.exponent then (x.mantissa * twoTo x.exponent.toNat, 1)
  else (x.mantissa, twoTo (-x.exponent).toNat)

def add (x y : Double) : Double :=
  ofRatio (x.ratio.1 * y.ratio.2 + y.ratio.1 * x.ratio.2) (x.ratio.2 * y.ratio.2)

def mul (x y : Double) : Double := ofRatio (x.ratio.1 * y.ratio.1) (x.ratio.2 * y.ratio.2)

def div (x y : Double) : Double := ofRatio (x.ratio.1 * y.ratio.2) (x.ratio.2 * y.ratio.1)

/-- The greatest power of ten in the range. -/
def tenLimit : Nat := 308

/-- `x * 10 ^ -n`, in steps of the greatest power of ten. Two steps reach zero. -/
def shrink (x : Double) (n : Nat) : Nat → Double
  | 0 => ⟨0, leastExponent⟩
  | steps + 1 =>
    if n ≤ tenLimit then x.div (ofNat (tenTo n))
    else if x.isZero then x
    else shrink (x.div (ofNat (tenTo tenLimit))) (n - tenLimit) steps

/-- `significand * 10 ^ exponent`, each operation rounded; nothing when it is out of range. -/
def ofDecimal? (significand : Nat) (exponent : Int) : Option Double :=
  let x := ofNat significand
  if exponent < 0 then some (shrink x (-exponent).toNat 4)
  else if exponent.toNat ≤ tenLimit then
    let y := x.mul (ofNat (tenTo exponent.toNat))
    if y.isInfinite then none else some y
  else if x.isZero then some x
  else none

/-! ## Shortest decimals -/

/-- The decimal `digits * 10 ^ exponent`. -/
structure Digits where
  digits : Nat
  exponent : Int
  deriving DecidableEq, Repr

namespace Digits

def ratio (t : Digits) : Nat × Nat :=
  if 0 ≤ t.exponent then (t.digits * tenTo t.exponent.toNat, 1)
  else (t.digits, tenTo (-t.exponent).toNat)

/-- Drop zeros at the end. -/
def trimZeros (t : Digits) : Nat → Digits
  | 0 => t
  | steps + 1 =>
    if t.digits % 10 == 0 && t.digits != 0 then trimZeros ⟨t.digits / 10, t.exponent + 1⟩ steps
    else t

end Digits

/-- The fraction `num / den * 10 ^ -e`. -/
def scaleTen (num den : Nat) (e : Int) : Nat × Nat :=
  if 0 ≤ e then (num, den * tenTo e.toNat) else (num * tenTo (-e).toNat, den)

/-- The decimal exponent of the leading digit of `num / den`, which is not zero. -/
def leadingPlace (num den : Nat) : Int :=
  let guess : Int := ((toString num).length : Int) - (toString den).length
  let (n, m) := scaleTen num den guess
  if m ≤ n then guess else guess - 1

/-- The two neighbours of `x` among the decimals with `count` digits. -/
def neighbours (x : Double) (count : Nat) : List Digits :=
  let (num, den) := x.ratio
  let place := leadingPlace num den - (count : Int) + 1
  let (n, m) := scaleTen num den place
  let low : Digits := ⟨n / m, place⟩
  let high : Digits := ⟨n / m + 1, place⟩
  if 2 * (n % m) < m || (2 * (n % m) == m && n / m % 2 == 0) then [low, high] else [high, low]

def readsBack (x : Double) (t : Digits) : Bool := ofRatio t.ratio.1 t.ratio.2 == x

/-- The decimal with the fewest digits that reads back, the nearest of those. -/
def shortest (x : Double) : Digits :=
  if x.isZero then ⟨0, 0⟩
  else
    let candidates := (List.range 17).flatMap fun n => x.neighbours (n + 1)
    ((candidates.find? x.readsBack).getD ⟨0, 0⟩).trimZeros 17

/-- An exponent with its sign. -/
def exponentText (e : Int) : List Char :=
  if e < 0 then '-' :: (toString e.natAbs).toList else '+' :: (toString e.natAbs).toList

/-- Digits in positional notation when the point falls at most 16 places after the first
digit or at most 5 zeros stand before it; in scientific notation otherwise. -/
def text (x : Double) : String :=
  if x.isZero then "0.0"
  else
    let t := x.shortest
    let digits := (toString t.digits).toList
    let point := (digits.length : Int) + t.exponent
    let zeros := fun (n : Int) => List.replicate n.toNat '0'
    String.ofList <|
      if 0 ≤ t.exponent && point ≤ 16 then digits ++ zeros t.exponent ++ ['.', '0']
      else if 0 < point && point ≤ 16 then
        digits.take point.toNat ++ '.' :: digits.drop point.toNat
      else if -5 < point && point ≤ 0 then '0' :: '.' :: zeros (-point) ++ digits
      else
        let mark := 'e' :: exponentText (point - 1)
        match digits with
        | [] => mark
        | [d] => d :: mark
        | d :: rest => d :: '.' :: rest ++ mark

end Double
end Uncomment
