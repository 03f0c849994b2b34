/-!
# The search for a cheap assignment

Rows are taken up one by one. Each looks for the shortest way to a free column, where a way may
push rows taken up before to other columns, and lengths are costs less the prices of the row and
the column. Afterwards the prices are changed so that no length becomes negative and the chosen
entries have length zero.

The search is the same for every sort of number and is told how to calculate. In whole numbers it
is exact. Where sums are rounded, it may miss the cheapest assignment, and where they leave the
range of the numbers, it may find no way at all.

* `Assignment.propose` returns the assignment that was found with its prices.
-/

namespace SchemaDrift.Assignment

/-- A sort of number to calculate with. Only a length that is `reachable` makes a way. -/
structure Arithmetic (α : Type) where
  zero : α
  plus : α → α → α
  minus : α → α → α
  less : α → α → Bool
  reachable : α → Bool

def Arithmetic.whole : Arithmetic Int :=
  ⟨0, (· + ·), (· - ·), fun a b => decide (a < b), fun _ => true⟩

structure Prices (α : Type) where
  rows : List α
  columns : List α

structure Proposal (α : Type) where
  columns : List Nat
  prices : Prices α

/-- An assignment of the rows taken up so far: who owns which column, and all prices. -/
structure Stage (α : Type) where
  rowPrice : Array α
  columnPrice : Array α
  owner : Array (Option Nat)
  columnOf : Array Nat

/-- A search for a free column: the shortest known way to each column, the row from which it
comes, the columns that are settled, and the others in the order in which they are looked at. -/
structure Ways (α : Type) where
  length : Array (Option α)
  source : Array Nat
  settled : List Nat
  remaining : Array Nat

/-- A column that remains, its place among the remaining ones and the length of its way. -/
structure Nearest (α : Type) where
  place : Nat
  column : Nat
  distance : α

structure Found (α : Type) where
  column : Nat
  distance : α
  ways : Ways α

namespace Ways

variable {α : Type}

/-- No ways yet. The last column is looked at first. -/
def fresh (columns start : Nat) : Ways α :=
  ⟨Array.replicate columns none, Array.replicate columns start, [], (Array.range columns).reverse⟩

/-- Extends all ways by one step from `row`, which is reached after `base`. -/
def extend (A : Arithmetic α) (w : Ways α) (costs : Array (Array α)) (p : Stage α) (row : Nat)
    (base : α) : Ways α :=
  w.remaining.foldl (fun w j =>
    let cost := (costs.getD row #[]).getD j A.zero
    let next := A.minus (A.minus (A.plus base cost) (p.rowPrice.getD row A.zero))
      (p.columnPrice.getD j A.zero)
    let shorter :=
      match w.length.getD j none with
      | some old => A.less next old
      | none => A.reachable next
    if shorter then
      { w with length := w.length.setIfInBounds j (some next),
               source := w.source.setIfInBounds j row }
    else w) w

/-- The nearest of the remaining columns. Of several at the same distance a free one is taken, the
last of them, and otherwise the first of all. -/
def nearest (A : Arithmetic α) (w : Ways α) (isFree : Nat → Bool) : Option (Nearest α) :=
  (List.range w.remaining.size).foldl (fun best place =>
    let j := w.remaining.getD place 0
    match w.length.getD j none, best with
    | none, best => best
    | some d, none => some ⟨place, j, d⟩
    | some d, some b =>
      if A.less d b.distance || (!A.less b.distance d && isFree j) then some ⟨place, j, d⟩
      else some b) none

/-- Settles the column at a place among the remaining ones; the last of them moves there. -/
def settle (w : Ways α) (place column : Nat) : Ways α :=
  { w with settled := column :: w.settled,
           remaining := (w.remaining.setIfInBounds place (w.remaining.back?.getD 0)).pop }

end Ways

section

variable {α : Type}

/-- Settles columns in order of distance until a free one is met; each step settles one. -/
def findFree (A : Arithmetic α) (costs : Array (Array α)) (p : Stage α) :
    Nat → Nat → α → Ways α → Option (Found α)
  | 0, _, _, _ => none
  | fuel + 1, row, base, w =>
    let w := w.extend A costs p row base
    match w.nearest A fun j => (p.owner.getD j none).isNone with
    | none => none
    | some best =>
      let w := w.settle best.place best.column
      match p.owner.getD best.column none with
      | none => some ⟨best.column, best.distance, w⟩
      | some next => findFree A costs p fuel next best.distance w

/-- Changes the prices of the starting row, of the settled columns and of their owners. -/
def Stage.reprice (A : Arithmetic α) (p : Stage α) (start : Nat) (found : Found α) : Stage α :=
  let p := { p with rowPrice := p.rowPrice.modify start (A.plus · found.distance) }
  found.ways.settled.foldl (fun p j =>
    match found.ways.length.getD j none with
    | none => p
    | some d =>
      let slack := A.minus found.distance d
      let p := { p with columnPrice := p.columnPrice.modify j (A.minus · slack) }
      match p.owner.getD j none with
      | some row => { p with rowPrice := p.rowPrice.modify row (A.plus · slack) }
      | none => p) p

/-- Gives `column` to the row from which its way comes, and so on back to the starting row. -/
def Stage.reassign (source : Array Nat) (start : Nat) : Nat → Nat → Stage α → Stage α
  | 0, _, p => p
  | fuel + 1, column, p =>
    let row := source.getD column start
    let previous := p.columnOf.getD row 0
    let p := { p with owner := p.owner.setIfInBounds column (some row),
                      columnOf := p.columnOf.setIfInBounds row column }
    if row = start then p else Stage.reassign source start fuel previous p

/-- Takes up one more row, if there is a way from it to a free column. -/
def Stage.takeUp (A : Arithmetic α) (costs : Array (Array α)) (p : Stage α) (start : Nat) :
    Option (Stage α) :=
  let n := costs.size
  (findFree A costs p n start A.zero (.fresh n start)).map fun found =>
    Stage.reassign found.ways.source start n found.column (p.reprice A start found)

/-- Takes up the rows of a list one by one. -/
def Stage.takeUpAll (A : Arithmetic α) (costs : Array (Array α)) (p : Stage α) :
    List Nat → Option (Stage α)
  | [] => some p
  | row :: rows =>
    match p.takeUp A costs row with
    | some p => Stage.takeUpAll A costs p rows
    | none => none

/-- Searches an assignment of least total for a square of costs. -/
def propose (A : Arithmetic α) (costs : List (List α)) : Option (Proposal α) :=
  let n := costs.length
  let start : Stage α := ⟨Array.replicate n A.zero, Array.replicate n A.zero,
    Array.replicate n none, Array.replicate n 0⟩
  (start.takeUpAll A (costs.map List.toArray).toArray (List.range n)).map fun p =>
    ⟨p.columnOf.toList, ⟨p.rowPrice.toList, p.columnPrice.toList⟩⟩

end

end SchemaDrift.Assignment
