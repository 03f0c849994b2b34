/-!
# Binary64 numbers

A double is given by the fields of its binary64 word, so every value of the type is one of the
doubles and two different finite values of the type differ in sign or in magnitude.

* `Double.units` is the exact value of a finite double, counted in units of `2 ^ -1074`, of which
  every finite double is a whole multiple.
* `Double.ofRank` numbers the doubles of one sign upwards from zero, so that adding one to a rank
  is the step to the next double.
* `Double.integer?` is the integer that a double is equal to, if there is one.
-/

namespace SchemaDrift

/-- A binary64 number: the one value that is no number, the two infinities, or a sign with the
exponent field `scale` and the fraction field `fraction`. -/
inductive Double where
  | nan
  | infinite (negative : Bool)
  | finite (negative : Bool) (scale : Fin 2047) (fraction : Fin 4503599627370496)
  deriving DecidableEq, Repr

namespace Double

/-- How many doubles share one exponent field. -/
def fractions : Nat := 4503599627370496

/-- How many units of `2 ^ -1074` make one. -/
def one : Nat := Nat.pow 2 1074

theorem one_pos : 0 < one := by decide +kernel

/-- The double whose rank among the doubles of its sign is `rank`: zero has rank zero, and every
rank beyond the largest finite double is infinite. -/
def ofRank (negative : Bool) (rank : Nat) : Double :=
  if h : rank / 4503599627370496 < 2047 then
    .finite negative ⟨rank / 4503599627370496, h⟩
      ⟨rank % 4503599627370496, Nat.mod_lt _ (by decide)⟩
  else .infinite negative

/-- The positive zero. -/
def zero : Double := .finite false 0 0

/-- The significand of a finite double; its leading bit is implicit unless `scale` is zero. -/
def significand (scale : Fin 2047) (fraction : Fin 4503599627370496) : Nat :=
  if scale.val = 0 then fraction.val else fractions + fraction.val

/-- The exact magnitude of a finite double in units of `2 ^ -1074`. -/
def magnitude (scale : Fin 2047) (fraction : Fin 4503599627370496) : Nat :=
  significand scale fraction * Nat.pow 2 (scale.val - 1)

/-- The exact value of a finite double in units of `2 ^ -1074`. -/
def units : Double → Option Int
  | .finite negative scale fraction =>
    some (if negative then -(magnitude scale fraction : Int) else magnitude scale fraction)
  | _ => none

def isFinite : Double → Bool
  | .finite .. => true
  | _ => false

/-- The integer equal to a double; none for fractions, infinities and `nan`. -/
def integer? : Double → Option Int
  | .finite negative scale fraction =>
    let units := magnitude scale fraction
    if units % one = 0 then
      let whole : Int := units / one
      some (if negative then -whole else whole)
    else none
  | _ => none

example : (ofRank false 4607182418800017408).integer? = some 1 := by decide +kernel
example : (ofRank true 4602678819172646912).integer? = none := by decide +kernel
example : ofRank false 9218868437227405312 = .infinite false := by decide

end Double

end SchemaDrift
