import SchemaDrift.Change.Record

/-!
# Changes as data and as text

A change has a record, and its data and its texts are those of the record. The verdict on the
record is the verdict on the change.

* `Change.wire` is a change as the fields of an object.
* `Change.line` is the JSON text of these fields and the verdict.
* `Change.summary` is the line that stands for a change in a message.
-/

namespace SchemaDrift

def Range.cell (r : Range) : Cell := .range r.bound (.num r.value)

namespace Edit

def form : Edit → Form
  | .typeAdd _ => .typeAdd
  | .typeRemove _ => .typeRemove
  | .constAdd _ => .constAdd
  | .constRemove _ => .constRemove
  | .propertyAdd _ _ => .propertyAdd
  | .propertyRemove _ _ => .propertyRemove
  | .rangeAdd _ => .rangeAdd
  | .rangeRemove _ => .rangeRemove
  | .rangeChange _ _ => .rangeChange
  | .tupleToArray _ => .tupleToArray
  | .arrayToTuple _ => .arrayToTuple
  | .tupleChange _ => .tupleChange
  | .requiredAdd _ => .requiredAdd
  | .requiredRemove _ => .requiredRemove
  | .formatAdd _ => .formatAdd
  | .formatRemove _ => .formatRemove
  | .formatChange _ _ => .formatChange
  | .patternAdd _ => .patternAdd
  | .patternRemove _ => .patternRemove
  | .patternChange _ _ => .patternChange
  | .minLengthAdd _ => .minLengthAdd
  | .minLengthRemove _ => .minLengthRemove
  | .minLengthChange _ _ => .minLengthChange
  | .maxLengthAdd _ => .maxLengthAdd
  | .maxLengthRemove _ => .maxLengthRemove
  | .maxLengthChange _ _ => .maxLengthChange

def lengthCell (n : Int) : Cell := .value (.num (.int n))

def textCell (s : String) : Cell := .value (.str s)

/-- What an edit carries, in the order of the fields of its form. -/
def cells : Edit → List Cell
  | .typeAdd k => [.kind k]
  | .typeRemove k => [.kind k]
  | .constAdd x => [.value x]
  | .constRemove x => [.value x]
  | .propertyAdd oldIsOpen name => [.value (.bool oldIsOpen), textCell name]
  | .propertyRemove oldIsOpen name => [.value (.bool oldIsOpen), textCell name]
  | .rangeAdd r => [r.cell]
  | .rangeRemove r => [r.cell]
  | .rangeChange old new => [old.cell, new.cell]
  | .tupleToArray n => [lengthCell n]
  | .arrayToTuple n => [lengthCell n]
  | .tupleChange n => [lengthCell n]
  | .requiredAdd name => [textCell name]
  | .requiredRemove name => [textCell name]
  | .formatAdd s => [textCell s]
  | .formatRemove s => [textCell s]
  | .formatChange old new => [textCell old, textCell new]
  | .patternAdd s => [textCell s]
  | .patternRemove s => [textCell s]
  | .patternChange old new => [textCell old, textCell new]
  | .minLengthAdd n => [lengthCell n]
  | .minLengthRemove n => [lengthCell n]
  | .minLengthChange old new => [lengthCell old, lengthCell new]
  | .maxLengthAdd n => [lengthCell n]
  | .maxLengthRemove n => [lengthCell n]
  | .maxLengthChange old new => [lengthCell old, lengthCell new]

/-- An edit fills the fields of its form. -/
theorem length_cells (e : Edit) : e.cells.length = e.form.fields.length := by cases e <;> rfl

end Edit

namespace Change

def record (c : Change) : Record := ⟨.str c.path, c.edit.form, c.edit.cells⟩

/-- A change as the fields of an object. -/
def wire (c : Change) : List (String × Json) := c.record.wire

def wireWithVerdict (c : Change) : List (String × Json) :=
  c.record.wireWith (.bool c.isBreaking)

def line (c : Change) : String := c.record.line (.bool c.isBreaking)

def summary (c : Change) : String := c.record.summary

/-- The record of a change has the verdict of the change. -/
theorem verdict_record (c : Change) : c.record.verdict = .ok (.bool c.isBreaking) := by
  obtain ⟨path, edit⟩ := c
  cases edit <;> try rfl
  case rangeChange old new =>
    simp only [record, Record.verdict, Record.pair, Edit.form, Edit.cells, Form.rule, Range.cell,
      Cell.rangeShrinks, isBreaking, Edit.isBreaking, Range.mayShrink]
    cases old.bound.keeps? new.bound <;> rfl
  case minLengthChange old new =>
    change Except.ok (Json.bool (Number.related .above (.int new) (.int old))) = _
    rw [Number.related_int, Relation.holds_above]
    rfl
  case maxLengthChange old new =>
    change Except.ok (Json.bool (Number.related .below (.int new) (.int old))) = _
    rw [Number.related_int, Relation.holds_below]
    rfl

example : line ⟨"", .typeAdd .number⟩ =
    "\x7b\"path\": \"\", \"change\": \"TypeAdd\", \"added\": \"number\", \"is_breaking\": false\x7d" :=
  by decide +kernel

end Change

end SchemaDrift
