import SchemaDrift.Fault
import SchemaDrift.Fields
import SchemaDrift.Names
import SchemaDrift.Schema

/-!
# Reading a schema document

A document is a boolean or an object of keywords. Unknown keywords are ignored; a known keyword of
the wrong shape is a fault that names the offending value. Of several faults the one of the keyword
that comes first in the order of `Schema.read` is reported.

* `Schema.read` reads a schema anywhere in a document.
* `Schema.ofDocument` reads a whole document with its two tables of definitions, of which
  `definitions` wins where both define a name.
-/

namespace SchemaDrift.Schema

/-! ## Rules without further schemas -/

abbrev Keywords := List (String × Json)

def keyword {α : Type} (fields : Keywords) (name : String) (read : Json → Except Fault α) :
    Except Fault (Option α) :=
  match fields.lookup name with
  | none => .ok none
  | some value =>
    match read value with
    | .ok x => .ok (some x)
    | .error e => .error e

def readKind (here : Pointer) (value : Json) : Except Fault Kind :=
  match value with
  | .str name =>
    match Kind.ofName? name with
    | some k => .ok k
    | none => .error (.malformed (.unknownKind value) here)
  | _ => .error (.malformed (.unknownKind value) here)

/-- The kinds that a list of values names; the first unknown one is reported. -/
def readKinds (here : Pointer) : List Json → Except Fault (List Kind)
  | [] => .ok []
  | x :: xs => do
    let k ← readKind here x
    let ks ← readKinds here xs
    return k :: ks

/-- The value of `type`: one name or a list of names. -/
def readType (here : Pointer) : Json → Except Fault (List Kind)
  | .arr xs => readKinds here xs
  | x => readKinds here [x]

/-- A bound: a finite number, rounded to a double. -/
def readBound (name : String) (here : Pointer) : Json → Except Fault Double
  | .num (.int n) =>
    let x := Double.ofInt n
    if x.isFinite then .ok x else .error .boundTooLarge
  | .num (.double x) =>
    if x.isFinite then .ok x else .error (.malformed (.notFinite name) here)
  | _ => .error (.malformed (.noNumber name) here)

/-- A length: a whole number that is not negative, in either spelling. -/
def readLength (name : String) (here : Pointer) (value : Json) : Except Fault Nat :=
  let whole : Option Int :=
    match value with
    | .num (.int n) => some n
    | .num (.double x) => x.integer?
    | _ => none
  match whole with
  | some (.ofNat n) => .ok n
  | _ => .error (.malformed (.noLength name) here)

def readString (name : String) (here : Pointer) : Json → Except Fault String
  | .str s => .ok s
  | _ => .error (.malformed (.noString name) here)

def strings? : List Json → Option (List String)
  | [] => some []
  | .str s :: xs => (strings? xs).map (s :: ·)
  | _ :: _ => none

/-- The value of `required`: a list of names, taken as a set. -/
def readRequired (here : Pointer) (value : Json) : Except Fault (List String) :=
  match value with
  | .arr xs =>
    match strings? xs with
    | some names => .ok (Names.ofList names)
    | none => .error (.malformed (.noNames "required") here)
  | _ => .error (.malformed (.noNames "required") here)

def readNumberRules (here : Pointer) (fields : Keywords) : Except Fault NumberRules := do
  let bound (name : String) := keyword fields name (readBound name (here.field name))
  let minimum ← bound "minimum"
  let maximum ← bound "maximum"
  let exclusiveMinimum ← bound "exclusiveMinimum"
  let exclusiveMaximum ← bound "exclusiveMaximum"
  return { minimum, maximum, exclusiveMinimum, exclusiveMaximum }

def readStringRules (here : Pointer) (fields : Keywords) : Except Fault StringRules := do
  let format ← keyword fields "format" (readString "format" (here.field "format"))
  let pattern ← keyword fields "pattern" (readString "pattern" (here.field "pattern"))
  let minLength ← keyword fields "minLength" (readLength "minLength" (here.field "minLength"))
  let maxLength ← keyword fields "maxLength" (readLength "maxLength" (here.field "maxLength"))
  return { format, pattern, minLength, maxLength }

/-! ## Rules that hold schemas -/

/-- What the keywords that hold further schemas say, each with the fault that reading it met. -/
structure Parts where
  properties : Except Fault (List (String × Schema))
  additional : Except Fault (Option Schema)
  items : Except Fault (Option (Items Schema))
  anyOf : Except Fault (Option (List Schema))
  negated : Except Fault (Option Schema)

def Parts.absent : Parts := ⟨.ok [], .ok none, .ok none, .ok none, .ok none⟩

/-- Puts the rules of an object of keywords together, in the order in which faults are
reported. -/
def assemble (here : Pointer) (fields : Keywords) (parts : Parts) : Except Fault Schema := do
  let kinds ← keyword fields "type" (readType (here.field "type"))
  let number ← readNumberRules here fields
  let text ← readStringRules here fields
  let properties ← parts.properties
  let required ← keyword fields "required" (readRequired (here.field "required"))
  let additional ← parts.additional
  let items ← parts.items
  let anyOf ← parts.anyOf
  let negated ← parts.negated
  let reference ← keyword fields "$ref" (readString "$ref" (here.field "$ref"))
  let identifier ← keyword fields "$id" (readString "$id" (here.field "$id"))
  return {
    kinds, const := fields.lookup "const", number, text, properties,
    required := required.getD [], additional, items, anyOf, negated, reference, identifier,
    definitions := [] }

mutual

/-- Reads a schema that stands at `here`. -/
def read (here : Pointer) : Json → Except Fault Schema
  | .bool true => .ok everything
  | .bool false => .ok nothing
  | .obj fields => assemble here fields (readParts here fields)
  | .null => .error (.malformed (.noSchema .null) here)
  | .num n => .error (.malformed (.noSchema (.num n)) here)
  | .str s => .error (.malformed (.noSchema (.str s)) here)
  | .arr xs => .error (.malformed (.noSchema (.arr xs)) here)

def readParts (here : Pointer) : Keywords → Parts
  | [] => .absent
  | (name, value) :: rest =>
    let parts := readParts here rest
    if name = "properties" then
      { parts with properties :=
          match value with
          | .obj table => readTable (here.field "properties") table
          | _ => .error (.malformed (.noObject "properties") (here.field "properties")) }
    else if name = "additionalProperties" then
      { parts with additional := some <$> read (here.field "additionalProperties") value }
    else if name = "items" then
      { parts with items :=
          match value with
          | .arr xs => (some ∘ .positions) <$> readList (here.field "items") 0 xs
          | rule => (some ∘ .every) <$> read (here.field "items") rule }
    else if name = "anyOf" then
      { parts with anyOf :=
          match value with
          | .arr xs => some <$> readList (here.field "anyOf") 0 xs
          | _ => .error (.malformed (.noArray "anyOf") (here.field "anyOf")) }
    else if name = "not" then
      { parts with negated := some <$> read (here.field "not") value }
    else parts

def readTable (here : Pointer) : List (String × Json) → Except Fault (List (String × Schema))
  | [] => .ok []
  | (name, value) :: rest => do
    let s ← read (here.field name) value
    let more ← readTable here rest
    return (name, s) :: more

/-- Reads the schemas of a list whose first item has the given position. -/
def readList (here : Pointer) (position : Nat) : List Json → Except Fault (List Schema)
  | [] => .ok []
  | x :: xs => do
    let s ← read (here.item position) x
    let more ← readList here (position + 1) xs
    return s :: more

end

/-! ## Documents -/

/-- Reads a table of definitions at the root; absent and `null` are empty. -/
def readDefinitions (fields : Keywords) (name : String) :
    Except Fault (List (String × Schema)) :=
  match fields.lookup name with
  | none => .ok []
  | some .null => .ok []
  | some (.obj table) => readTable (Pointer.root.field name) table
  | some _ => .error (.malformed (.noObject name) (Pointer.root.field name))

def ofDocument (document : Json) : Except Fault Schema := do
  let root ← read Pointer.root document
  match document with
  | .obj fields =>
    let older ← readDefinitions fields "$defs"
    let newer ← readDefinitions fields "definitions"
    return { root with definitions := Fields.putAll older newer }
  | _ => return root

end SchemaDrift.Schema
