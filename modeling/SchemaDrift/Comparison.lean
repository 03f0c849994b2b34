import SchemaDrift.Change.Wire
import SchemaDrift.Comparison.Descent
import SchemaDrift.Schema.Reading

/-!
# Comparing documents

* `DepthLimit` is a valid limit on the depth of a comparison.
* `Comparison.ofDocuments` compares two documents; it keeps what was reported before a fault.
* `Comparison.changes` are the changes of a comparison that came to its end, `Comparison.breaking`
  those that may reject documents, and `Comparison.isBackwardCompatible` says that there are none.
* `incompatibility` is the message about breaking changes.
-/

namespace SchemaDrift

structure DepthLimit where
  value : Nat
  positive : 1 ≤ value

namespace DepthLimit

def standard : DepthLimit := ⟨128, by decide⟩

/-- The limit that a value stands for: an integer from one upwards. -/
def ofJson : Json → Except Fault DepthLimit
  | .num (.int (.ofNat (n + 1))) => .ok ⟨n + 1, Nat.succ_le_succ (Nat.zero_le n)⟩
  | .num (.int n) => .error (.limitTooSmall n)
  | x => .error (.limitNoInteger x)

def ofOption : Option Json → Except Fault DepthLimit
  | none => .ok standard
  | some x => ofJson x

end DepthLimit

/-- How many prices are remembered if no number is given. -/
def standardCapacity : Int := 1024

/-- What came out of a comparison: the changes in the order in which they were reported, the notes
in the order in which they were taken, and the fault that ended it early, if any. -/
structure Comparison where
  reported : List Change
  notes : List Note
  fault : Option Fault

namespace Comparison

def failed (e : Fault) : Comparison := ⟨[], [], some e⟩

/-- Compares two roots, starting from the given memo of prices. -/
def ofRoots (limit : DepthLimit) (memo : Memo (String × String) Nat) (old new : Schema) :
    Comparison :=
  let setting := Setting.ofRoots old new limit.value
  let (outcome, _, notes) :=
    compareWithin setting (setting.levelsFrom 0) ⟨"", old, new, false⟩ (memo, [])
  ⟨outcome.emitted, notes.reverse,
    match outcome.result with
    | .ok _ => none
    | .error e => some e⟩

/-- Compares two documents; both are read before anything is reported. -/
def ofDocuments (limit : DepthLimit) (capacity : Int) (old new : Json) : Comparison :=
  match Schema.ofDocument old, Schema.ofDocument new, Memo.ofCapacity capacity with
  | .error e, _, _ => failed e
  | .ok _, .error e, _ => failed e
  | .ok _, .ok _, .error e => failed e
  | .ok s, .ok t, .ok memo => ofRoots limit memo s t

/-- The changes, unless the comparison failed. -/
def changes (c : Comparison) : Except Fault (List Change) :=
  match c.fault with
  | none => .ok c.reported
  | some e => .error e

/-- The changes that may reject documents which the old schema accepts, unless the comparison
failed. -/
def breaking (c : Comparison) : Except Fault (List Change) := do
  let changes ← c.changes
  return changes.filter Change.isBreaking

/-- Whether no change is breaking, unless the comparison failed. -/
def isBackwardCompatible (c : Comparison) : Except Fault Bool := do
  let breaking ← c.breaking
  return breaking.isEmpty

/-- The comparison with the standard limit and capacity. -/
def standard (old new : Json) : Comparison := ofDocuments .standard standardCapacity old new

example : (standard (.obj [("type", .str "integer")])
    (.obj [("type", .str "number")])).isBackwardCompatible.toOption = some true := by decide
example : (standard (.bool true) (.bool false)).isBackwardCompatible.toOption = some false := by
  decide

end Comparison

/-- The message about breaking changes, one line for each; none if there are none. -/
def incompatibility (breaking : List Change) : Option String :=
  if breaking.isEmpty then none
  else
    some (s!"Schema change is not backward compatible: {breaking.length} breaking change(s)\n" ++
      String.intercalate "\n" (breaking.map Change.summary))

end SchemaDrift
