import SchemaDrift.Json

/-!
# Changes

A change is an edit at a path: something was added to the schema there, removed from it, or has
another value. Whether an edit is breaking, that is, whether it may reject documents that were
accepted before, is decided by the edit alone. The verdict is on the safe side: a shrinking edit is
never called harmless.

* `Edit.isBreaking` is the verdict on an edit.
* `Range.mayShrink` is the verdict on a bound that became another one.
-/

namespace SchemaDrift

inductive Bound where
  | minimum
  | maximum
  | exclusiveMinimum
  | exclusiveMaximum
  deriving DecidableEq, Repr

namespace Bound

/-- All bounds in reporting order. -/
def all : List Bound := [.minimum, .maximum, .exclusiveMinimum, .exclusiveMaximum]

def keyword : Bound → String
  | .minimum => "minimum"
  | .maximum => "maximum"
  | .exclusiveMinimum => "exclusiveMinimum"
  | .exclusiveMaximum => "exclusiveMaximum"

def ofKeyword? (keyword : String) : Option Bound := all.find? fun b => b.keyword == keyword

theorem ofKeyword?_keyword (b : Bound) : ofKeyword? b.keyword = some b := by cases b <;> decide

/-- How the old value must stand to the new one so that the new bound violates no number that
satisfies the old one. Between bounds of different kinds only the step from an exclusive bound to
the inclusive one on the same side can be harmless. -/
def keeps? : Bound → Bound → Option Relation
  | .minimum, .minimum => some .atLeast
  | .exclusiveMinimum, .exclusiveMinimum => some .atLeast
  | .exclusiveMinimum, .minimum => some .atLeast
  | .maximum, .maximum => some .atMost
  | .exclusiveMaximum, .exclusiveMaximum => some .atMost
  | .exclusiveMaximum, .maximum => some .atMost
  | _, _ => none

end Bound

structure Range where
  bound : Bound
  value : Number
  deriving DecidableEq, Repr

/-- Whether a number may satisfy the old range and violate the new one. -/
def Range.mayShrink (old new : Range) : Bool :=
  match old.bound.keeps? new.bound with
  | some r => !old.value.related r new.value
  | none => true

/-- What has changed. Edits of properties remember whether the old schema left further properties
unrestricted. -/
inductive Edit where
  | typeAdd (added : Kind)
  | typeRemove (removed : Kind)
  | constAdd (added : Json)
  | constRemove (removed : Json)
  | propertyAdd (oldIsOpen : Bool) (added : String)
  | propertyRemove (oldIsOpen : Bool) (removed : String)
  | rangeAdd (added : Range)
  | rangeRemove (removed : Range)
  | rangeChange (old new : Range)
  | tupleToArray (oldLength : Int)
  | arrayToTuple (newLength : Int)
  | tupleChange (newLength : Int)
  | requiredAdd (property : String)
  | requiredRemove (property : String)
  | formatAdd (added : String)
  | formatRemove (removed : String)
  | formatChange (old new : String)
  | patternAdd (added : String)
  | patternRemove (removed : String)
  | patternChange (old new : String)
  | minLengthAdd (added : Int)
  | minLengthRemove (removed : Int)
  | minLengthChange (old new : Int)
  | maxLengthAdd (added : Int)
  | maxLengthRemove (removed : Int)
  | maxLengthChange (old new : Int)
  deriving Repr

/-- Whether an edit may reject documents that were accepted before. A declared property restricts
documents if properties without declaration were unrestricted, and a dropped one does if they were
not. Edits of formats, patterns and tuples count as breaking unless they drop the rule. -/
def Edit.isBreaking : Edit → Bool
  | .typeAdd _ => false
  | .typeRemove _ => true
  | .constAdd _ => true
  | .constRemove _ => false
  | .propertyAdd oldIsOpen _ => oldIsOpen
  | .propertyRemove oldIsOpen _ => !oldIsOpen
  | .rangeAdd _ => true
  | .rangeRemove _ => false
  | .rangeChange old new => old.mayShrink new
  | .tupleToArray _ => false
  | .arrayToTuple _ => true
  | .tupleChange _ => true
  | .requiredAdd _ => true
  | .requiredRemove _ => false
  | .formatAdd _ => true
  | .formatRemove _ => false
  | .formatChange _ _ => true
  | .patternAdd _ => true
  | .patternRemove _ => false
  | .patternChange _ _ => true
  | .minLengthAdd _ => true
  | .minLengthRemove _ => false
  | .minLengthChange old new => decide (old < new)
  | .maxLengthAdd _ => true
  | .maxLengthRemove _ => false
  | .maxLengthChange old new => decide (new < old)

/-- An edit at a place of the schema. The empty path is the root. -/
structure Change where
  path : String
  edit : Edit
  deriving Repr

def Change.isBreaking (c : Change) : Bool := c.edit.isBreaking

example : Range.mayShrink ⟨.exclusiveMinimum, .int 1⟩ ⟨.minimum, .int 1⟩ = false := by
  decide +kernel
example : Range.mayShrink ⟨.minimum, .int 1⟩ ⟨.exclusiveMinimum, .int 1⟩ = true := by decide

end SchemaDrift
