import SchemaDrift.Json.Text
import SchemaDrift.Schema
import SchemaDrift.Text.Writer

/-!
# Schemas in writing

As a document, a schema is an object that has a field for each rule present, in a fixed order. Kinds
are always a list, bounds are doubles, and lengths are integers.

As a text, a schema is a record that gives every rule by name, absent ones too. The rules on
numbers, strings, objects and arrays are records inside it.

* `Schema.toDocument` is the document of a schema. It is for display; no comparison makes use of it.
* `Schema.write` writes the text of a schema, and `Schema.fingerprint` is that text. Prices are
  remembered under it.
-/

namespace SchemaDrift.Schema

/-- A field that is written only if it has a value. -/
def entry (name : String) (value : Option Json) : List (String × Json) :=
  match value with
  | some x => [(name, x)]
  | none => []

/-- A field that is written only if its entries are not empty. -/
def tableEntry (name : String) (fields : List (String × Json)) : List (String × Json) :=
  if fields.isEmpty then [] else [(name, .obj fields)]

def kindNames (ks : List Kind) : Json := .arr (ks.map fun k => .str k.name)

def doubleValue (x : Double) : Json := .num (.double x)

def lengthValue (n : Nat) : Json := .num (.int n)

def numberEntries (rules : NumberRules) : List (String × Json) :=
  entry "minimum" (rules.minimum.map doubleValue) ++
  entry "maximum" (rules.maximum.map doubleValue) ++
  entry "exclusiveMinimum" (rules.exclusiveMinimum.map doubleValue) ++
  entry "exclusiveMaximum" (rules.exclusiveMaximum.map doubleValue)

def textEntries (rules : StringRules) : List (String × Json) :=
  entry "format" (rules.format.map .str) ++
  entry "pattern" (rules.pattern.map .str) ++
  entry "minLength" (rules.minLength.map lengthValue) ++
  entry "maxLength" (rules.maxLength.map lengthValue)

def requiredEntries (names : List String) : List (String × Json) :=
  if names.isEmpty then [] else [("required", .arr (names.map .str))]

mutual

def toDocument : Schema → Json
  | ⟨kinds, const, number, text, properties, required, additional, items, anyOf, negated,
      reference, identifier, definitions⟩ =>
    .obj (entry "type" (kinds.map kindNames) ++ entry "const" const ++ numberEntries number ++
      textEntries text ++ tableEntry "properties" (tableDocument properties) ++
      requiredEntries required ++ entry "additionalProperties" (optionDocument additional) ++
      entry "items" (itemsDocument items) ++ entry "anyOf" (branchesDocument anyOf) ++
      entry "not" (optionDocument negated) ++ entry "$ref" (reference.map .str) ++
      entry "$id" (identifier.map .str) ++
      tableEntry "definitions" (tableDocument definitions))

def tableDocument : List (String × Schema) → List (String × Json)
  | [] => []
  | (name, s) :: rest => (name, toDocument s) :: tableDocument rest

def listDocument : List Schema → List Json
  | [] => []
  | s :: rest => toDocument s :: listDocument rest

def optionDocument : Option Schema → Option Json
  | none => none
  | some s => some (toDocument s)

def itemsDocument : Option (Items Schema) → Option Json
  | none => none
  | some (.every s) => some (toDocument s)
  | some (.positions ss) => some (.arr (listDocument ss))

def branchesDocument : Option (List Schema) → Option Json
  | none => none
  | some ss => some (.arr (listDocument ss))

end

/-! ## Texts of rules without further schemas -/

open Writer (word optional tuple next)

def kindWord (k : Kind) : List Char :=
  "<JsonSchemaType.".toList ++ k.name.toList.map Char.toUpper ++ ':' :: ' ' ::
    Text.quotedChars k.name.toList ++ ['>']

def writeKind : Writer Kind := fun k rest => kindWord k ++ rest

def writeBound : Writer Double := fun x => Json.spell Json.message (doubleValue x)

def writeLength : Writer Nat := fun n => Json.spell Json.message (lengthValue n)

/-- A constant. Its absence has a word of its own, since `null` is a constant as well. -/
def writeConst : Writer (Option Json) := optional "UNSET" (Json.spell Json.message)

def writeNumber : Writer NumberRules := fun rules rest =>
  word "NumberFacet(minimum=" <| optional "None" writeBound rules.minimum <|
  next "maximum" <| optional "None" writeBound rules.maximum <|
  next "exclusive_minimum" <| optional "None" writeBound rules.exclusiveMinimum <|
  next "exclusive_maximum" <| optional "None" writeBound rules.exclusiveMaximum <| ')' :: rest

def writeText : Writer StringRules := fun rules rest =>
  word "StringFacet(format=" <| optional "None" Writer.quoted rules.format <|
  next "pattern" <| optional "None" Writer.quoted rules.pattern <|
  next "min_length" <| optional "None" writeLength rules.minLength <|
  next "max_length" <| optional "None" writeLength rules.maxLength <| ')' :: rest

/-- The set of the required names. Names stand in braces, but an empty set has none. -/
def writeRequired : Writer (List String) := fun names rest =>
  word "frozenset(" <|
    match names with
    | [] => ')' :: rest
    | _ :: _ => '{' :: Writer.entries Writer.quoted [] names ('}' :: ')' :: rest)

example : writeKind .null [] = "<JsonSchemaType.NULL: 'null'>".toList := by decide +kernel
example : writeRequired ["a", "b"] [] = "frozenset(\x7b'a', 'b'\x7d)".toList := by decide +kernel

/-! ## Texts of schemas -/

mutual

def write : Schema → List Char → List Char
  | ⟨kinds, const, number, text, properties, required, additional, items, anyOf, negated,
      reference, identifier, definitions⟩, rest =>
    word "SchemaNode(instance_type=" <| optional "None" (tuple writeKind) kinds <|
    next "const" <| writeConst const <|
    next "number" <| writeNumber number <|
    next "string" <| writeText text <|
    next "object" <|
      word "ObjectFacet(properties=" <| .cons '{' <| writeFields [] properties <| .cons '}' <|
      next "required" <| writeRequired required <|
      next "additional_properties" <| writeOption additional <| .cons ')' <|
    next "array" <| word "ArrayFacet(items=" <| writeItems items <| .cons ')' <|
    next "any_of" <| writeBranches anyOf <|
    next "not_" <| writeOption negated <|
    next "ref" <| optional "None" Writer.quoted reference <|
    next "schema_id" <| optional "None" Writer.quoted identifier <|
    next "definitions" <| .cons '{' <| writeFields [] definitions <| '}' :: ')' :: rest

/-- Writes the fields of a table; `lead` stands in front of the first one. -/
def writeFields (lead : List Char) : List (String × Schema) → List Char → List Char
  | [], rest => rest
  | (name, s) :: fs, rest =>
    lead ++ Writer.quoted name (':' :: ' ' :: write s (writeFields [',', ' '] fs rest))

/-- Writes the schemas of a list; `lead` stands in front of the first one. -/
def writeEntries (lead : List Char) : List Schema → List Char → List Char
  | [], rest => rest
  | s :: ss, rest => lead ++ write s (writeEntries [',', ' '] ss rest)

def writeOption : Option Schema → List Char → List Char
  | none, rest => word "None" rest
  | some s, rest => write s rest

def writeItems : Option (Items Schema) → List Char → List Char
  | none, rest => word "None" rest
  | some (.every s), rest => write s rest
  | some (.positions ss), rest => '(' :: writeEntries [] ss (Writer.tupleEnd ss rest)

def writeBranches : Option (List Schema) → List Char → List Char
  | none, rest => word "None" rest
  | some ss, rest => '(' :: writeEntries [] ss (Writer.tupleEnd ss rest)

end

def fingerprint : Schema → String := Writer.text write

end SchemaDrift.Schema
