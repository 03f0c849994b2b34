import SchemaDrift.Double

/-!
# Rounding to the nearest double

`Double.nearest` rounds an exact quotient to the nearest double, a tie going to the one whose last
bit is zero. Integers, decimal literals and sums all go through it, so each is rounded once.

* `Double.ofInt`: the nearest double of an integer, infinite beyond the range.
* `Double.ofDecimal`: the nearest double of a whole number of digits times a power of ten.
* `Double.add` and `Double.sub`: the nearest double of an exact sum or difference.
-/

namespace SchemaDrift.Double

/-- The whole number nearest to `num / den`, a tie going to the even one. -/
def roundHalfEven (num den : Nat) : Nat :=
  let whole := num / den
  let rest := num % den
  if den < 2 * rest ∨ (2 * rest = den ∧ whole % 2 = 1) then whole + 1 else whole

example : roundHalfEven 5 2 = 2 ∧ roundHalfEven 7 2 = 4 ∧ roundHalfEven 8 3 = 3 := by decide

/-- `num / den` measured in units of `2 ^ exponent`, as a numerator and a denominator. -/
def inUnits (num den : Nat) (exponent : Int) : Nat × Nat :=
  (num * Nat.pow 2 (-exponent).toNat, den * Nat.pow 2 exponent.toNat)

/-- The exponent of the last bit that a double near `num / den` keeps: 53 significant bits, but
never a unit smaller than `2 ^ -1074`. -/
def lastBit (num den : Nat) : Int :=
  let low := max (-1074) ((num.log2 : Int) - den.log2 - 53)
  let (n, d) := inUnits num den low
  if n / d < 9007199254740992 then low else low + 1

/-- The rank of the double nearest to `num / den`. Rounding up to a power of two carries into the
exponent field by itself. -/
def nearestRank (num den : Nat) : Nat :=
  if num = 0 then 0
  else
    let exponent := lastBit num den
    let (n, d) := inUnits num den exponent
    (exponent + 1074).toNat * fractions + roundHalfEven n d

/-- The double nearest to the quotient `num / den` with the given sign. -/
def nearest (negative : Bool) (num den : Nat) : Double :=
  ofRank negative (nearestRank num den)

/-- The double nearest to an integer. -/
def ofInt (n : Int) : Double :=
  nearest (decide (n < 0)) n.natAbs 1

/-- The number of decimal digits of a positive whole number, and one for zero. -/
def digitCount (n : Nat) : Nat := (Nat.toDigits 10 n).length

/-- The double nearest to `digits · 10 ^ exponent` with the given sign. Numbers far outside the
range are decided by their number of digits alone. -/
def ofDecimal (negative : Bool) (digits : Nat) (exponent : Int) : Double :=
  if digits = 0 then ofRank negative 0
  else
    let size := (digitCount digits : Int) + exponent
    if 310 < size then .infinite negative
    else if size < -330 then ofRank negative 0
    else nearest negative (digits * Nat.pow 10 exponent.toNat) (Nat.pow 10 (-exponent).toNat)

example : (ofDecimal false 1 400) = .infinite false := by decide
example : (ofDecimal false 5 (-1)).units = some (2 ^ 1073) := by decide +kernel

/-- The sum of two doubles, rounded once; a sum that is exactly zero is negative only when both
summands are. -/
def add : Double → Double → Double
  | .nan, _ => .nan
  | _, .nan => .nan
  | .infinite a, .infinite b => if a = b then .infinite a else .nan
  | .infinite a, .finite .. => .infinite a
  | .finite .., .infinite b => .infinite b
  | .finite a s f, .finite b t g =>
    let sum := ((Double.finite a s f).units.getD 0) + ((Double.finite b t g).units.getD 0)
    if sum = 0 then ofRank (a && b) 0
    else nearest (decide (sum < 0)) sum.natAbs one

def negate : Double → Double
  | .nan => .nan
  | .infinite negative => .infinite !negative
  | .finite negative scale fraction => .finite (!negative) scale fraction

/-- The difference of two doubles, rounded once. -/
def sub (x y : Double) : Double := add x y.negate

example : sub (.infinite false) (.infinite false) = .nan := by decide
example : sub (ofInt 9007199254740994) (ofInt 1) = ofInt 9007199254740992 := by decide +kernel

end SchemaDrift.Double
