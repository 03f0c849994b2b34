import SchemaDrift.Change
import SchemaDrift.Change.Form
import SchemaDrift.Fault
import SchemaDrift.Json.Order

/-!
# Records of changes

A record has the form of a change, but any value may stand in its fields and for its path. So a
verdict can be missing, where two values have no order, and it is handed on as it is where a form
takes it from a field.

* `Record.ofFields` makes a record of fields with names.
* `Record.wire` is a record as the fields of an object.
* `Record.verdict` says whether the change is breaking.
* `Record.line` is the JSON text of a record with its verdict.
* `Record.summary` is the line that stands for a change in a message.
-/

namespace SchemaDrift

def Kind.wire (k : Kind) : Json := .str k.name

/-- What stands in a field: a kind, a bound with its value, or any other value. -/
inductive Cell where
  | value (x : Json)
  | kind (k : Kind)
  | range (bound : Bound) (value : Json)
  deriving Repr

namespace Cell

/-- A cell as a value: a kind as its name, a range as an object with its one bound. -/
def wire : Cell → Json
  | .value x => x
  | .kind k => k.wire
  | .range b x => .obj [(b.keyword, x)]

def sortName : Cell → String
  | .value x => x.sortName
  | .kind _ => "JsonSchemaType"
  | .range _ _ => "Range"

def isVoid : Cell → Bool
  | .value x => x.isVoid
  | _ => false

def text? : Cell → Option String
  | .value (.str s) => some s
  | .kind k => some k.name
  | _ => none

def related (r : Relation) (x y : Cell) : Except Fault Bool :=
  match x, y with
  | .value a, .value b =>
    (a.related r b).mapError fun (a, b) => .noOrder r a.sortName b.sortName
  | _, _ =>
    match x.text?, y.text? with
    | some a, some b => .ok (r.holds (compare a b))
    | _, _ => .error (.noOrder r x.sortName y.sortName)

/-- Whether a number may satisfy the old range and violate the new one. -/
def rangeShrinks (old new : Cell) : Except Fault Bool :=
  match old, new with
  | .range b x, .range c y =>
    match b.keeps? c with
    | some r => (Cell.related r (.value x) (.value y)).map (!·)
    | none => .ok true
  | .range _ _, other => .error (.noRange other.sortName)
  | other, _ => .error (.noRange other.sortName)

end Cell

/-- A change as data: its path, its form and what stands in its fields. -/
structure Record where
  path : Json
  form : Form
  cells : List Cell
  deriving Repr

namespace Record

/-- The record of a form with the given fields. They may come in any order, but each must be a
field of the form, and none may be missing. -/
def ofFields (path : Json) (form : Form) (fields : List (String × Cell)) : Except Fault Record :=
  match fields.find? fun f => !form.fields.contains f.1 with
  | some f => .error (.unknownField form.name f.1)
  | none =>
    match form.fields.filter fun name => (fields.lookup name).isNone with
    | [] => .ok ⟨path, form, form.fields.filterMap fun name => fields.lookup name⟩
    | missing => .error (.missingFields form.name missing)

def payload (r : Record) : List (String × Json) := r.form.fields.zip (r.cells.map Cell.wire)

/-- A record as the fields of an object: its path, the name of its form and its own fields. -/
def wire (r : Record) : List (String × Json) :=
  ("path", r.path) :: ("change", .str r.form.name) :: r.payload

def wireWith (r : Record) (verdict : Json) : List (String × Json) :=
  r.wire ++ [("is_breaking", verdict)]

/-- The JSON text of a record with a verdict. -/
def line (r : Record) (verdict : Json) : String := (Json.obj (r.wireWith verdict)).toText

/-- The first and the second cell; a cell that is missing is `null`. -/
def pair (r : Record) : Cell × Cell :=
  match r.cells with
  | x :: y :: _ => (x, y)
  | [x] => (x, .value .null)
  | [] => (.value .null, .value .null)

/-- Whether the change of a record is breaking. A flag is handed on as it is, but a range is not a
verdict that could be written. -/
def verdict (r : Record) : Except Fault Json :=
  let (first, second) := r.pair
  match r.form.rule with
  | .always => .ok (.bool true)
  | .never => .ok (.bool false)
  | .ifOpen =>
    match first with
    | .range _ _ => .error (.notWritable first.sortName)
    | _ => .ok first.wire
  | .ifClosed => .ok (.bool first.isVoid)
  | .ifRangeShrinks => (first.rangeShrinks second).map .bool
  | .ifMinimumGrows => (second.related .above first).map .bool
  | .ifMaximumShrinks => (second.related .below first).map .bool

/-- How a record names its place; a path that counts as nothing is the root. -/
def place (r : Record) : String :=
  if r.path.isVoid then "<root>"
  else
    match r.path with
    | .str path => path
    | x => x.literal

/-- The line that stands for a change in a message. -/
def summary (r : Record) : String :=
  s!"  {r.place}: {r.form.name} {(Json.obj r.payload).literal}"

end Record

end SchemaDrift
