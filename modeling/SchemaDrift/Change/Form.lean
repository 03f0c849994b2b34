/-!
# Forms of changes

A change has one of twenty-six forms. Its form fixes its name, the names of its fields and the rule
by which it is found to be breaking.

* `Form.name`, `Form.fields` and `Form.rule` are these three.
* `Form.ofName?` is the form with a given name.
-/

namespace SchemaDrift

inductive Form where
  | typeAdd
  | typeRemove
  | constAdd
  | constRemove
  | propertyAdd
  | propertyRemove
  | rangeAdd
  | rangeRemove
  | rangeChange
  | tupleToArray
  | arrayToTuple
  | tupleChange
  | requiredAdd
  | requiredRemove
  | formatAdd
  | formatRemove
  | formatChange
  | patternAdd
  | patternRemove
  | patternChange
  | minLengthAdd
  | minLengthRemove
  | minLengthChange
  | maxLengthAdd
  | maxLengthRemove
  | maxLengthChange
  deriving DecidableEq, Repr

/-- How the verdict on a change is found: it is the same for all changes of the form, or it hangs
on the first field, on two ranges, or on two lengths. -/
inductive Rule where
  | always
  | never
  | ifOpen
  | ifClosed
  | ifRangeShrinks
  | ifMinimumGrows
  | ifMaximumShrinks
  deriving DecidableEq, Repr

namespace Form

def all : List Form :=
  [.typeAdd, .typeRemove, .constAdd, .constRemove, .propertyAdd, .propertyRemove, .rangeAdd,
    .rangeRemove, .rangeChange, .tupleToArray, .arrayToTuple, .tupleChange, .requiredAdd,
    .requiredRemove, .formatAdd, .formatRemove, .formatChange, .patternAdd, .patternRemove,
    .patternChange, .minLengthAdd, .minLengthRemove, .minLengthChange, .maxLengthAdd,
    .maxLengthRemove, .maxLengthChange]

def name : Form → String
  | .typeAdd => "TypeAdd"
  | .typeRemove => "TypeRemove"
  | .constAdd => "ConstAdd"
  | .constRemove => "ConstRemove"
  | .propertyAdd => "PropertyAdd"
  | .propertyRemove => "PropertyRemove"
  | .rangeAdd => "RangeAdd"
  | .rangeRemove => "RangeRemove"
  | .rangeChange => "RangeChange"
  | .tupleToArray => "TupleToArray"
  | .arrayToTuple => "ArrayToTuple"
  | .tupleChange => "TupleChange"
  | .requiredAdd => "RequiredAdd"
  | .requiredRemove => "RequiredRemove"
  | .formatAdd => "FormatAdd"
  | .formatRemove => "FormatRemove"
  | .formatChange => "FormatChange"
  | .patternAdd => "PatternAdd"
  | .patternRemove => "PatternRemove"
  | .patternChange => "PatternChange"
  | .minLengthAdd => "MinLengthAdd"
  | .minLengthRemove => "MinLengthRemove"
  | .minLengthChange => "MinLengthChange"
  | .maxLengthAdd => "MaxLengthAdd"
  | .maxLengthRemove => "MaxLengthRemove"
  | .maxLengthChange => "MaxLengthChange"

def ofName? (name : String) : Option Form := all.find? fun f => f.name == name

def fields : Form → List String
  | .typeAdd | .constAdd | .rangeAdd | .formatAdd | .patternAdd | .minLengthAdd | .maxLengthAdd =>
    ["added"]
  | .typeRemove | .constRemove | .rangeRemove | .formatRemove | .patternRemove | .minLengthRemove
  | .maxLengthRemove => ["removed"]
  | .propertyAdd => ["lhs_additional_properties", "added"]
  | .propertyRemove => ["lhs_additional_properties", "removed"]
  | .rangeChange | .minLengthChange | .maxLengthChange => ["old_value", "new_value"]
  | .tupleToArray => ["old_length"]
  | .arrayToTuple | .tupleChange => ["new_length"]
  | .requiredAdd | .requiredRemove => ["property"]
  | .formatChange => ["old_format", "new_format"]
  | .patternChange => ["old_pattern", "new_pattern"]

def rule : Form → Rule
  | .typeAdd | .constRemove | .rangeRemove | .tupleToArray | .requiredRemove | .formatRemove
  | .patternRemove | .minLengthRemove | .maxLengthRemove => .never
  | .typeRemove | .constAdd | .rangeAdd | .arrayToTuple | .tupleChange | .requiredAdd | .formatAdd
  | .formatChange | .patternAdd | .patternChange | .minLengthAdd | .maxLengthAdd => .always
  | .propertyAdd => .ifOpen
  | .propertyRemove => .ifClosed
  | .rangeChange => .ifRangeShrinks
  | .minLengthChange => .ifMinimumGrows
  | .maxLengthChange => .ifMaximumShrinks

theorem mem_all (f : Form) : f ∈ all := by cases f <;> decide

theorem ofName?_name (f : Form) : ofName? f.name = some f := by cases f <;> decide +kernel

end Form

end SchemaDrift
