import SchemaDrift.Assignment.Rounded
import SchemaDrift.Fault
import SchemaDrift.Json.Equal

/-!
# Arrays of numbers as costs

Costs may be given as an array of any dimension. It must be regular, that is, its parts must have
the same dimensions. An array without entries has the empty assignment; any other must be a square
of finite numbers, where a boolean stands for one or zero. The search takes every entry for the
double next to it, so integers of many digits that round to the same double cost the same.

* `Grid.assign` is the assignment that the search finds, or the reason why there is none.
* `Grid.total` adds up the entries that an assignment chooses, as they were given.
-/

namespace SchemaDrift

/-- An array of any dimension. -/
inductive Grid where
  | entry (value : Json)
  | rows (items : List Grid)

namespace Grid

/-- What two lists of dimensions have in common from the front. -/
def common : List Nat → List Nat → List Nat
  | m :: ms, n :: ns => if m = n then m :: common ms ns else []
  | _, _ => []

mutual

/-- The dimensions of an array, as far as its parts agree on them. -/
def shape : Grid → List Nat
  | .entry _ => []
  | .rows gs => gs.length :: sharedShape gs

/-- The dimensions on which all parts agree. -/
def sharedShape : List Grid → List Nat
  | [] => []
  | [g] => shape g
  | g :: h :: gs => common (shape g) (sharedShape (h :: gs))

end

mutual

/-- Whether the parts of an array have the same dimensions, at every depth. -/
def isRegular : Grid → Bool
  | .entry _ => true
  | .rows gs => areRegular (sharedShape gs) gs

/-- Whether arrays are regular and have the given dimensions. -/
def areRegular (dimensions : List Nat) : List Grid → Bool
  | [] => true
  | g :: gs => decide (shape g = dimensions) && isRegular g && areRegular dimensions gs

end

def volume (dimensions : List Nat) : Nat := dimensions.foldl (· * ·) 1

def entries : Grid → List Json
  | .entry x => [x]
  | .rows gs => gs.filterMap fun g =>
    match g with
    | .entry x => some x
    | .rows _ => none

def table : Grid → List (List Json)
  | .entry _ => []
  | .rows gs => gs.map entries

/-- Whether an entry can be a cost: a double, a boolean, or an integer that has room in a word of
64 bits. -/
def isCost (x : Json) : Bool :=
  match x.asNumber? with
  | some (.int n) => decide (-9223372036854775808 ≤ n) && decide (n ≤ 18446744073709551615)
  | some (.double _) => true
  | none => false

def value (x : Json) : Number := x.asNumber?.getD (.int 0)

/-- An assignment of least total, as far as sums of doubles can tell. -/
def assign (g : Grid) : Except Fault (List Nat) :=
  if !g.isRegular then .error (.irregular g.shape)
  else if volume g.shape = 0 then .ok []
  else
    match g.shape with
    | [m, n] =>
      if m = n then
        if g.table.all fun row => row.all isCost then
          let rows := g.table.map fun row => row.map fun x => (value x).toDouble
          if rows.all fun row => row.all Double.isFinite then
            match Assignment.solveRounded rows with
            | some columns => .ok columns
            | none => .error .noAssignment
          else .error .costNotFinite
        else .error .noCost
      else .error (.notSquare [m, n])
    | dimensions => .error (.notSquare dimensions)

/-- The sum of two numbers: exact for integers, rounded if one is a double. -/
def plus : Number → Number → Number
  | .int a, .int b => .int (a + b)
  | a, b => .double (a.toDouble.add b.toDouble)

def total (g : Grid) (columns : List Nat) : Number :=
  (g.table.zipWith (fun row j => value (row.getD j .null)) columns).foldl plus (.int 0)

example : shape (.rows [.rows [.entry .null, .entry .null], .rows [.entry .null]]) = [2] := by
  decide
example : isRegular (.rows [.rows [], .rows []]) = true := by decide
example : shape (.rows [.rows [], .rows []]) = [2, 0] := by decide

end Grid

end SchemaDrift
