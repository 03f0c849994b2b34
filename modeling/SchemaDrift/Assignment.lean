import SchemaDrift.Assignment.Search

/-!
# Assignments of least cost

An assignment gives every row of a square of costs a column of its own; its total is the sum of the
chosen costs. `Assignment.solve` returns one whose total is least.

The search proposes an assignment together with a price for every row and every column. If no
entry is cheaper than its two prices together, every assignment costs at least the sum of all
prices; an assignment that costs exactly that sum is then optimal. `Assignment.isCertified` checks
the proposal in this way, and `Assignment.solve` uses it only if the check succeeds; otherwise it
tries all assignments.
-/

namespace SchemaDrift.Assignment

abbrev Costs := List (List Int)

def sum : List Int → Int
  | [] => 0
  | x :: xs => x + sum xs

/-- The sum of the entries that an assignment chooses. -/
def total (costs : Costs) (columns : List Nat) : Int :=
  sum (costs.zipWith (fun row j => row.getD j 0) columns)

/-- Whether every one of the first `n` columns is given out exactly once. -/
def isPermutation (n : Nat) (columns : List Nat) : Bool :=
  columns.length == n && (List.range n).all columns.contains

/-- Whether there are as many columns as rows, in every row. -/
def isSquare (costs : Costs) : Bool := costs.all fun row => row.length == costs.length

/-- Whether no entry is cheaper than the prices of its row and its column together. -/
def isFeasible (costs : Costs) (prices : Prices Int) : Bool :=
  prices.rows.length == costs.length && prices.columns.length == costs.length &&
    (costs.zip prices.rows).all fun (row, p) =>
      (row.zip prices.columns).all fun (c, q) => decide (p + q ≤ c)

/-- Whether a proposal proves its own assignment optimal. -/
def isCertified (costs : Costs) (p : Proposal Int) : Bool :=
  isSquare costs && isPermutation costs.length p.columns && isFeasible costs p.prices &&
    total costs p.columns == sum p.prices.rows + sum p.prices.columns

/-- The cheaper of the candidates; of equally cheap ones the first. -/
def cheaper : List (Int × List Nat) → Option (Int × List Nat)
  | [] => none
  | x :: xs =>
    match cheaper xs with
    | none => some x
    | some y => if y.1 < x.1 then some y else some x

/-- The cheapest way to give every row one of the free columns, by trying all of them. -/
def tryAll : Costs → List Nat → Option (Int × List Nat)
  | [], _ => some (0, [])
  | row :: rest, free =>
    cheaper (free.filterMap fun j =>
      (tryAll rest (free.erase j)).map fun (c, columns) => (row.getD j 0 + c, j :: columns))

/-- An assignment of least total: entry `i` is the column of row `i`. -/
def solve (costs : Costs) : List Nat :=
  match (propose .whole costs).filter (isCertified costs) with
  | some p => p.columns
  | none => ((tryAll costs (List.range costs.length)).map (·.2)).getD []

example : solve [[4, 1, 3], [2, 0, 5], [3, 2, 2]] = [1, 0, 2] := by decide +kernel
example : (propose .whole [[4, 1], [2, 0]]).any (isCertified [[4, 1], [2, 0]]) = true := by
  decide +kernel

end SchemaDrift.Assignment
