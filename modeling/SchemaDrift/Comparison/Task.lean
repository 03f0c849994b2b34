import SchemaDrift.Change
import SchemaDrift.Names
import SchemaDrift.Schema.Likeness
import SchemaDrift.Schema.Rewriting

/-!
# What there is to do for a pair of schemas

Comparing two schemas comes down to a list of tasks: edits to report at the place of the pair, and
pairs of subschemas to go on with. This module lists the tasks of the rules other than `anyOf`;
nothing here looks below the pair itself.

* `Step` is one step down from a pair, and `Step.suffix` is what it adds to the path.
* `facetTasks` lists the tasks of all rules in the order in which they are done: properties,
  bounds, additional properties, items, required names, and the rules on strings.
* `typeEdits` and `constEdits` come before them.
-/

namespace SchemaDrift

/-- A step from a pair of schemas to a pair of their subschemas. -/
inductive Step where
  | property (name : String)
  | position (index : Nat)
  | items
  | additional
  | branch (index : Nat)
  /-- To a branch that the comparison itself has made; it has no place of its own. -/
  | splitBranch
  deriving DecidableEq, Repr

def Step.suffix : Step → String
  | .property name => "." ++ name
  | .position index => "." ++ toString index
  | .items => ".?"
  | .additional => ".<additionalProperties>"
  | .branch index => ".<anyOf:" ++ toString index ++ ">"
  | .splitBranch => ""

inductive Task where
  | report (edit : Edit)
  | descend (step : Step) (old new : Schema)

namespace Task

/-! ## Kinds and constants -/

/-- The kinds that are no longer admitted, then those that are admitted now. -/
def typeEdits (old new : Schema) : List Edit :=
  let before := old.typing.kindSet
  let after := new.typing.kindSet
  (before.filter fun k => !after.contains k).map .typeRemove ++
    (after.filter fun k => !before.contains k).map .typeAdd

/-- The edits of the constant. A changed constant is removed and added. -/
def constEdits (old new : Schema) : List Edit :=
  match old.const, new.const with
  | none, none => []
  | some x, none => [.constRemove x]
  | none, some y => [.constAdd y]
  | some x, some y => if x.equal y then [] else [.constRemove x, .constAdd y]

/-! ## Rules with one value -/

/-- The edits of a rule that has at most one value. -/
def valueEdits {α : Type} (agrees : α → α → Bool) (added removed : α → Edit)
    (changed : α → α → Edit) : Option α → Option α → List Edit
  | none, none => []
  | none, some y => [added y]
  | some x, none => [removed x]
  | some x, some y => if agrees x y then [] else [changed x y]

/-- The bounds that hold for a schema; if it has none of its own, those of its only branch. -/
def boundsOf (s : Schema) : NumberRules :=
  match s.anyOf with
  | some [branch] => if s.number.isEmpty then branch.number else s.number
  | _ => s.number

def boundValue (rules : NumberRules) : Bound → Option Double
  | .minimum => rules.minimum
  | .maximum => rules.maximum
  | .exclusiveMinimum => rules.exclusiveMinimum
  | .exclusiveMaximum => rules.exclusiveMaximum

def rangeOf (b : Bound) (x : Double) : Range := ⟨b, .double x⟩

def rangeEdits (old new : Schema) : List Edit :=
  Bound.all.flatMap fun b =>
    valueEdits (fun x y => (Number.double x).same (.double y))
      (fun y => .rangeAdd (rangeOf b y)) (fun x => .rangeRemove (rangeOf b x))
      (fun x y => .rangeChange (rangeOf b x) (rangeOf b y))
      (boundValue (boundsOf old) b) (boundValue (boundsOf new) b)

def textEdits (old new : Schema) : List Edit :=
  valueEdits (· == ·) .formatAdd .formatRemove .formatChange old.text.format new.text.format ++
  valueEdits (· == ·) .patternAdd .patternRemove .patternChange
    old.text.pattern new.text.pattern ++
  valueEdits (· == ·) (fun n => .minLengthAdd n) (fun n => .minLengthRemove n)
    (fun m n => .minLengthChange m n) old.text.minLength new.text.minLength ++
  valueEdits (· == ·) (fun n => .maxLengthAdd n) (fun n => .maxLengthRemove n)
    (fun m n => .maxLengthChange m n) old.text.maxLength new.text.maxLength

/-! ## Rules on objects and arrays -/

/-- Whether a schema leaves properties without declaration unrestricted. -/
def isOpen (s : Schema) : Bool :=
  match s.additional with
  | none => true
  | some a => a.isUnconstrained

def propertyNames (s : Schema) : List String := Names.ofList (Fields.keys s.properties)

/-- Dropped properties, then declared ones, then the pairs under the names of both sides. -/
def propertyTasks (old new : Schema) : List Task :=
  let before := propertyNames old
  let after := propertyNames new
  (Names.without before after).map (fun name => report (.propertyRemove (isOpen old) name)) ++
  (Names.without after before).map (fun name => report (.propertyAdd (isOpen old) name)) ++
  (Names.common before after).filterMap fun name =>
    match old.properties.lookup name, new.properties.lookup name with
    | some s, some t => some (descend (.property name) s t)
    | _, _ => none

/-- The pair of the schemas for further properties, if both sides have one and they are not
alike as written. -/
def additionalTasks (old new : Schema) : List Task :=
  match old.additional, new.additional with
  | some s, some t => if s.alike t then [] else [descend .additional s t]
  | _, _ => []

def positionTasks : Nat → List (Schema × Schema) → List Task
  | _, [] => []
  | index, (s, t) :: rest => descend (.position index) s t :: positionTasks (index + 1) rest

/-- The tasks of the rules on items, if both sides have one. Rules for positions are compared as
far as both sides have them, and each with a rule for every item on the other side. -/
def itemTasks (old new : Schema) : List Task :=
  match old.items, new.items with
  | some (.every s), some (.every t) => [descend .items s t]
  | some (.every s), some (.positions ts) =>
    report (.arrayToTuple ts.length) :: positionTasks 0 (ts.map fun t => (s, t))
  | some (.positions ss), some (.every t) =>
    report (.tupleToArray ss.length) :: positionTasks 0 (ss.map fun s => (s, t))
  | some (.positions ss), some (.positions ts) =>
    (if ss.length = ts.length then [] else [report (.tupleChange ts.length)]) ++
      positionTasks 0 (ss.zip ts)
  | _, _ => []

def requiredEdits (old new : Schema) : List Edit :=
  (Names.without old.required new.required).map .requiredRemove ++
    (Names.without new.required old.required).map .requiredAdd

/-! ## All rules -/

def facetTasks (old new : Schema) : List Task :=
  propertyTasks old new ++ (rangeEdits old new).map report ++ additionalTasks old new ++
    itemTasks old new ++ (requiredEdits old new).map report ++ (textEdits old new).map report

end Task

end SchemaDrift
