import SchemaDrift.Double.Rounding

/-!
# Numbers

A number is an integer of any size or a double, and the two never become one another unasked.
Comparison is exact: it looks at the values and rounds nothing.

* `Number.compare?` orders any two numbers except `nan`.
* `Number.same` and `Number.related` are the comparisons read off it.
-/

namespace SchemaDrift

/-- How the first of two values may stand to the second in an order. -/
inductive Relation where
  | below
  | above
  | atMost
  | atLeast
  deriving DecidableEq, Repr

namespace Relation

def sign : Relation → String
  | .below => "<"
  | .above => ">"
  | .atMost => "<="
  | .atLeast => ">="

/-- Whether two values are so related if they are ordered in the given way. -/
def holds : Relation → Ordering → Bool
  | .below, o => o == .lt
  | .above, o => o == .gt
  | .atMost, o => o != .gt
  | .atLeast, o => o != .lt

theorem holds_below (a b : Int) : below.holds (compare a b) = decide (a < b) := by
  rw [Bool.eq_iff_iff]
  simp only [holds, compare, compareOfLessAndEq, beq_iff_eq, decide_eq_true_eq]
  split
  · simp_all
  · split <;> simp_all

theorem holds_above (a b : Int) : above.holds (compare a b) = decide (b < a) := by
  rw [Bool.eq_iff_iff]
  simp only [holds, compare, compareOfLessAndEq, beq_iff_eq, decide_eq_true_eq]
  split
  · rename_i less
    simp [Int.le_of_lt less]
  · split
    · simp_all
    · rename_i notLess notEqual
      simp [Int.lt_iff_le_and_ne, Ne.symm notEqual, Int.not_lt.mp notLess]

end Relation

/-- A number as a JSON text gives it: a literal without point and exponent is an integer. -/
inductive Number where
  | int (value : Int)
  | double (value : Double)
  deriving DecidableEq, Repr

namespace Number

/-- A place on the number line: an exact value in units of `2 ^ -1074`, or one of the two ends. -/
inductive Place where
  | below
  | point (units : Int)
  | above
  deriving DecidableEq, Repr

/-- Where a number stands on the number line; `nan` stands nowhere. -/
def place : Number → Option Place
  | .int n => some (.point (n * Double.one))
  | .double .nan => none
  | .double (.infinite negative) => some (if negative then .below else .above)
  | .double x => x.units.map .point

def Place.order : Place → Place → Ordering
  | .below, .below => .eq
  | .below, _ => .lt
  | .point _, .below => .gt
  | .point a, .point b => if a < b then .lt else if a = b then .eq else .gt
  | .point _, .above => .lt
  | .above, .above => .eq
  | .above, _ => .gt

/-- The order of two numbers by exact value; none when one of them is `nan`. -/
def compare? (a b : Number) : Option Ordering :=
  match a.place, b.place with
  | some p, some q => some (p.order q)
  | _, _ => none

/-- Whether two numbers have the same exact value; `nan` has none. -/
def same (a b : Number) : Bool := a.compare? b == some .eq

/-- Whether two numbers are related in the given way; never when one is `nan`. -/
def related (r : Relation) (a b : Number) : Bool := (a.compare? b).any r.holds

def isFinite : Number → Bool
  | .int _ => true
  | .double x => x.isFinite

/-- The double nearest to a number. -/
def toDouble : Number → Double
  | .int n => .ofInt n
  | .double x => x

/-- Integers are ordered as integers. -/
theorem compare?_int (a b : Int) : compare? (.int a) (.int b) = some (compare a b) := by
  have positive : (0 : Int) < Double.one := Int.natCast_pos.mpr Double.one_pos
  simp only [compare?, place, Place.order, Int.mul_lt_mul_right positive,
    Int.mul_eq_mul_right_iff (Int.ne_of_gt positive), Option.some.injEq]
  rfl

theorem related_int (r : Relation) (a b : Int) :
    related r (.int a) (.int b) = r.holds (compare a b) := by
  simp [related, compare?_int]

example : same (.int 1) (.double (.ofInt 1)) = true := by decide +kernel
example : same (.double .nan) (.double .nan) = false := by decide
example : related .atMost (.int 5) (.double (.infinite false)) = true := by decide

end Number

end SchemaDrift
