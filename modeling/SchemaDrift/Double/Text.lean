import SchemaDrift.Double.Rounding

/-!
# The shortest decimal text of a double

The text of a finite double has the fewest digits that read back as the same double and, of the
texts with that many digits, is the nearest to it.

* `Double.shortest` finds the digits: for each number of digits it tests the two decimals of that
  length around the value, by reading them back.
* `Double.layout` writes the digits: in positional notation while the first digit stands between
  `10 ^ -4` and `10 ^ 15`, otherwise with an exponent of at least two digits and a sign.
-/

namespace SchemaDrift.Double

/-- What is written for the values that have no digits. -/
structure SpecialNames where
  nan : String
  infinity : String

/-- A decimal: a whole number of digits times a power of ten. -/
structure Decimal where
  digits : Nat
  exponent : Int
  deriving DecidableEq, Repr

/-- The position of the decimal point in front of the first digit of a positive number below one:
how often it can be multiplied by ten and stay below one, negated. -/
def pointBelowOne (den : Nat) : Nat → Nat → Int
  | 0, _ => 0
  | fuel + 1, num => if num * 10 < den then pointBelowOne den fuel (num * 10) - 1 else 0

/-- The least `p` with `num / den < 10 ^ p`. -/
def pointPosition (num den : Nat) : Int :=
  if den ≤ num then digitCount (num / den) else pointBelowOne den 400 num

/-- The decimals with `count` digits on the two sides of `num / den`, the nearer one first and of
two equally near ones the even one first. -/
def neighbours (num den : Nat) (count : Nat) : List Decimal :=
  let exponent := pointPosition num den - count
  let n := num * Nat.pow 10 (-exponent).toNat
  let d := den * Nat.pow 10 exponent.toNat
  let low := n / d
  if roundHalfEven n d = low then [⟨low, exponent⟩, ⟨low + 1, exponent⟩]
  else [⟨low + 1, exponent⟩, ⟨low, exponent⟩]

/-- The first of the neighbours with `count`, `count + 1`, … digits that reads back as `x`. -/
def shortestFrom (x : Double) (num den : Nat) : Nat → Nat → Option Decimal
  | 0, _ => none
  | left + 1, count =>
    match (neighbours num den count).find? fun c => ofDecimal false c.digits c.exponent == x with
    | some c => some c
    | none => shortestFrom x num den left (count + 1)

/-- The decimal that is exactly equal to a finite double: its unit `2 ^ -1074` is `5 ^ 1074` times
`10 ^ -1074`. -/
def exactDecimal (scale : Fin 2047) (fraction : Fin 4503599627370496) : Decimal :=
  ⟨magnitude scale fraction * Nat.pow 5 1074, -1074⟩

/-- The shortest decimal that reads back as the finite double with these fields. Seventeen digits
are always enough. -/
def shortest (scale : Fin 2047) (fraction : Fin 4503599627370496) : Decimal :=
  (shortestFrom (.finite false scale fraction) (magnitude scale fraction) one 17 1).getD
    (exactDecimal scale fraction)

/-- The digits of a decimal without trailing zeros, and the position of the decimal point. -/
def significantDigits (x : Decimal) : List Char × Int :=
  let ds := Nat.toDigits 10 x.digits
  (((ds.reverse.dropWhile (· == '0')).reverse), ds.length + x.exponent)

def exponentText (e : Int) : List Char :=
  let ds := Nat.toDigits 10 e.natAbs
  (if e < 0 then '-' else '+') :: (if ds.length < 2 then '0' :: ds else ds)

/-- Writes significant digits whose decimal point stands at `point`. -/
def layout (ds : List Char) (point : Int) : List Char :=
  if -4 < point ∧ point ≤ 16 then
    if point ≤ 0 then '0' :: '.' :: (List.replicate (-point).toNat '0' ++ ds)
    else
      let whole := point.toNat
      if ds.length ≤ whole then ds ++ List.replicate (whole - ds.length) '0' ++ ['.', '0']
      else ds.take whole ++ '.' :: ds.drop whole
  else
    match ds with
    | [] => ['0', '.', '0']
    | [d] => d :: 'e' :: exponentText (point - 1)
    | d :: more => d :: '.' :: more ++ 'e' :: exponentText (point - 1)

def magnitudeText (scale : Fin 2047) (fraction : Fin 4503599627370496) : List Char :=
  if magnitude scale fraction = 0 then ['0', '.', '0']
  else
    let (ds, point) := significantDigits (shortest scale fraction)
    layout ds point

/-- The text of a double, with the given names for the values that have no digits. -/
def text (names : SpecialNames) : Double → String
  | .nan => names.nan
  | .infinite negative => if negative then "-" ++ names.infinity else names.infinity
  | .finite negative scale fraction =>
    String.ofList (if negative then '-' :: magnitudeText scale fraction
      else magnitudeText scale fraction)

example : (ofDecimal true 25 (-2)).text ⟨"nan", "inf"⟩ = "-0.25" := by decide +kernel
example : (ofDecimal false 1 23).text ⟨"nan", "inf"⟩ = "1e+23" := by decide +kernel

end SchemaDrift.Double
