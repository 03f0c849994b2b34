import SchemaDrift.Fields
import SchemaDrift.Schema.Typing

/-!
# Rewriting schemas before they are compared

* `Schema.project` keeps of a schema what concerns one kind.
* `Schema.split?` turns a schema with a list of kinds into branches of one kind each. A schema with
  branches of its own is left alone.
* `Schema.unfoldConst` turns a constant object into properties with constants, so that objects are
  compared key by key.
-/

namespace SchemaDrift.Schema

/-- The schema of the given kind with the rules of `s` for it. -/
def project (s : Schema) (k : Kind) : Schema :=
  match k with
  | .number => { everything with kinds := some [k], number := s.number }
  | .integer => { everything with kinds := some [k], number := s.number }
  | .string => { everything with kinds := some [k], text := s.text }
  | .object =>
    { everything with
      kinds := some [k], properties := s.properties, required := s.required,
      additional := s.additional }
  | .array => { everything with kinds := some [k], items := s.items }
  | .boolean => { everything with kinds := some [k] }
  | .null => { everything with kinds := some [k] }

/-- The branches that stand for a schema with a list of kinds. -/
def split? (s : Schema) : Option Schema :=
  match s.typing, s.anyOf with
  | .listed ks, none => some { everything with anyOf := some (ks.map s.project) }
  | _, _ => none

def split (s : Schema) : Schema := s.split?.getD s

mutual

/-- The schema that admits a constant: an object key by key, anything else as it is. -/
def ofConst : Json → Schema
  | .obj fields => { everything with properties := constTable fields }
  | .null => { everything with const := some .null }
  | .bool b => { everything with const := some (.bool b) }
  | .num n => { everything with const := some (.num n) }
  | .str s => { everything with const := some (.str s) }
  | .arr xs => { everything with const := some (.arr xs) }

/-- The properties that stand for the fields of a constant object. -/
def constTable : List (String × Json) → List (String × Schema)
  | [] => []
  | (name, value) :: rest => (name, ofConst value) :: constTable rest

end

/-- A schema whose constant, if it is an object, has become properties. They take the place of
declared properties of the same names. -/
def unfoldConst (s : Schema) : Schema :=
  match s.const with
  | some (.obj fields) =>
    { s with const := none, properties := Fields.putAll s.properties (constTable fields) }
  | _ => s

example :
    Fields.keys (unfoldConst { everything with const := some (.obj [("a", .null)]) }).properties =
      ["a"] := by decide

end SchemaDrift.Schema
