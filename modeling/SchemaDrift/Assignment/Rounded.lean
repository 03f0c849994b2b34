import SchemaDrift.Assignment
import SchemaDrift.Number

/-!
# Costs that are doubles

Costs that are doubles are searched in doubles, where every sum is rounded. If all sums that the
search may form are exact, rounding changes nothing, and the assignment is the one that
`Assignment.solve` finds for the exact values of the costs; it is then of least total. Otherwise it
is as good as rounded sums can tell, and if a sum leaves the range there may be none.

* `Assignment.isExact` says of the exact values of costs whether no sum is rounded.
* `Assignment.solveRounded` is the assignment for costs that are doubles.
-/

namespace SchemaDrift.Assignment

def Arithmetic.rounded : Arithmetic Double where
  zero := .zero
  plus := .add
  minus := .sub
  less a b := Number.related .below (.double a) (.double b)
  reachable a := Number.related .below (.double a) (.double (.infinite false))

/-- The exact values of finite costs, in units of `2 ^ -1074`. -/
def exactCosts (rows : List (List Double)) : Costs :=
  rows.map fun row => row.map fun x => x.units.getD 0

def largestCost (costs : Costs) : Nat :=
  costs.foldl (fun largest row => row.foldl (fun largest c => max largest c.natAbs) largest) 0

/-- A bound on the magnitude of every sum that the search forms. A way passes every row at most
once, so its length and the prices come to a few costs for every row. -/
def reach (costs : Costs) : Nat := 16 * (costs.length + 1) * largestCost costs

/-- What a double must stay below in magnitude, in units of `2 ^ -1074`. -/
def ceiling : Nat := Nat.pow 2 2098

/-- The largest power of two, up to that ceiling, of which all costs are multiples. -/
def commonUnit (costs : Costs) : Nat :=
  costs.foldl (fun unit row => row.foldl (fun unit c => Nat.gcd unit c.natAbs) unit) ceiling

/-- Whether the search rounds no sum: all sums are multiples of the common unit, and up to `2 ^ 53`
times that unit every multiple is a double. -/
def isExact (costs : Costs) : Bool :=
  decide (reach costs ≤ 9007199254740992 * commonUnit costs) && decide (reach costs < ceiling)

/-- An assignment for a square of finite doubles, if there is a way for every row. -/
def solveRounded (rows : List (List Double)) : Option (List Nat) :=
  let costs := exactCosts rows
  if isExact costs then some (solve costs)
  else (propose .rounded rows).map (·.columns)

example : isExact (exactCosts [[.ofInt 4, .ofInt 1], [.ofInt (-2), .ofDecimal false 5 (-1)]])
    = true := by decide +kernel
example : isExact (exactCosts [[.ofInt 9007199254740992]]) = true := by decide +kernel
example : isExact (exactCosts [[.ofInt 9007199254740991, .ofInt 1], [.ofInt 1, .ofInt 1]])
    = false := by decide +kernel
example : solveRounded [[.ofInt 9007199254741002, .ofInt 9007199254741001],
    [.ofInt 9007199254741001, .ofInt 9007199254740999]] = some [1, 0] := by decide +kernel

end SchemaDrift.Assignment
