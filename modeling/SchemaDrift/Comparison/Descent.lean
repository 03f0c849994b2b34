import SchemaDrift.Assignment
import SchemaDrift.Comparison.Note
import SchemaDrift.Comparison.Task
import SchemaDrift.Memo
import SchemaDrift.Schema.Document
import SchemaDrift.Schema.References

/-!
# The comparison of two schemas

A comparison visits a pair of schemas, reports the edits at its place and goes on with pairs of
subschemas. It follows references on both sides first and splits up lists of kinds. Branches of
`anyOf` are aligned so that the total number of changes is least: a pair of branches is priced by a
trial, which compares the two from an empty path and counts the changes.

* `visit` does what there is to do for one pair; how to go on and what a pair of branches costs are
  given to it.
* `compareWithin` ties the knot. It goes down by the levels that are left and fails where none is.
* `Setting.pricing` says what is done with trials; `memoised` remembers their prices.
-/

namespace SchemaDrift

/-- The state of a comparison: the prices known so far, and the notes taken, latest first. -/
abbrev Notebook := Memo (String × String) Nat × List Note

abbrev Comparing := Session Notebook Change Fault

/-- A pair of schemas to compare at a path. The kinds of aligned branches are not compared. -/
structure Visit where
  path : String
  old : Schema
  new : Schema
  aligned : Bool

/-- What a comparison is done with: the references of both roots, the depth limit, the way to align
branches, and what is done with the trial that prices a pair of branches. -/
structure Setting where
  old : References
  new : References
  limit : Nat
  align : Assignment.Costs → List Nat
  pricing : (Schema → Schema → Comparing Nat) → Schema → Schema → Comparing Nat

namespace Comparing

def note (n : Note) : Comparing Unit := Session.update fun (memo, notes) => (memo, n :: notes)

/-- Follows the references of a schema. A reference that leads nowhere is noted. -/
def follow (refs : References) (s : Schema) : Comparing Schema := do
  let last := refs.follow s
  match last.dangling with
  | some r => note (.dangling r)
  | none => pure ()
  return last.schema

/-- Fills a list of branches up to a length with schemas that admit nothing. -/
def fillUp (length : Nat) (branches : List Schema) : List Schema :=
  branches ++ List.replicate (length - branches.length) .nothing

/-- The visits to aligned branches: each branch on the left with its partner on the right. -/
def branchVisits (path : String) (split : Bool) (olds news : List Schema) (columns : List Nat) :
    List Visit :=
  (olds.zip columns).filterMap fun (s, j) =>
    let step : Step := if split then .splitBranch else .branch j
    news[j]?.map fun t => ⟨path ++ step.suffix, s, t, true⟩

/-- Aligns the branches of two schemas that both have some, and goes on with the aligned pairs.
`split` says that the branches on the right were made by the comparison. -/
def alignBranches (setting : Setting) (descend : Visit → Comparing Unit)
    (price : Schema → Schema → Comparing Nat) (path : String) (old new : Schema) (split : Bool) :
    Comparing Unit :=
  match old.anyOf, new.anyOf with
  | some olds, some news => do
    let length := max olds.length news.length
    let olds := fillUp length olds
    let news := fillUp length news
    let costs ← Session.collect (fun s => Session.collect (price s) news) olds
    let columns := setting.align (costs.map fun row => row.map Int.ofNat)
    note (.aligned path columns)
    Session.each descend (branchVisits path split olds news columns)
  | _, _ => pure ()

def perform (descend : Visit → Comparing Unit) (path : String) : Task → Comparing Unit
  | .report edit => Session.emit ⟨path, edit⟩
  | .descend step s t => descend ⟨path ++ step.suffix, s, t, false⟩

/-- The tasks of a pair beside its branches. The kinds are compared unless the pair was aligned,
and of a pair of which a side was split only kinds and constants are. -/
def tasks (aligned split : Bool) (old new : Schema) : List Task :=
  let unfoldedOld := old.unfoldConst
  let unfoldedNew := new.unfoldConst
  (if aligned then [] else (Task.typeEdits old new).map .report) ++
    (Task.constEdits unfoldedOld unfoldedNew).map .report ++
    (if split then [] else Task.facetTasks unfoldedOld unfoldedNew)

def visit (setting : Setting) (descend : Visit → Comparing Unit)
    (price : Schema → Schema → Comparing Nat) (v : Visit) : Comparing Unit := do
  let old ← follow setting.old v.old
  let new ← follow setting.new v.new
  let splitOld := old.split?.isSome
  let splitNew := new.split?.isSome
  if splitOld || splitNew then note (.split v.path splitOld splitNew)
  let old := old.split
  let new := new.split
  alignBranches setting descend price v.path old new splitNew
  Session.each (perform descend v.path) (tasks v.aligned (splitOld || splitNew) old new)

end Comparing

/-- Compares a pair and all that is below it, going at most as deep as there are levels left. -/
def compareWithin (setting : Setting) : Nat → Visit → Comparing Unit
  | 0, v => Session.fail (.tooDeep v.path setting.limit)
  | levels + 1, v =>
    Comparing.visit setting (compareWithin setting levels)
      (setting.pricing fun s t => Session.tally (compareWithin setting levels ⟨"", s, t, false⟩)) v

namespace Setting

/-- The pricing that remembers prices by the texts of the two schemas. -/
def memoised (trial : Schema → Schema → Comparing Nat) (s t : Schema) : Comparing Nat :=
  Memo.fetch .memoFull (s.fingerprint, t.fingerprint) (trial s t)

def ofRoots (old new : Schema) (limit : Nat) : Setting where
  old := .ofRoot old
  new := .ofRoot new
  limit := limit
  align := Assignment.solve
  pricing := memoised

/-- The levels that are left at a depth: the pair at that depth and all down to the limit. -/
def levelsFrom (setting : Setting) (depth : Int) : Nat := (setting.limit + 1 - depth).toNat

end Setting

end SchemaDrift
