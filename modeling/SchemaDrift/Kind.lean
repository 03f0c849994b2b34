/-!
# Kinds of JSON values

The seven names that a schema may give as a type. Their order in `Kind.all` is the order in which
kinds are reported.
-/

namespace SchemaDrift

/-- A primitive type of JSON Schema. Every `integer` is also a `number`. -/
inductive Kind where
  | string
  | number
  | integer
  | object
  | array
  | boolean
  | null
  deriving DecidableEq, Repr

namespace Kind

/-- All kinds in reporting order. -/
def all : List Kind := [.string, .number, .integer, .object, .array, .boolean, .null]

def name : Kind → String
  | .string => "string"
  | .number => "number"
  | .integer => "integer"
  | .object => "object"
  | .array => "array"
  | .boolean => "boolean"
  | .null => "null"

def ofName? (name : String) : Option Kind := all.find? fun k => k.name == name

theorem mem_all (k : Kind) : k ∈ all := by cases k <;> decide

theorem ofName?_name (k : Kind) : ofName? k.name = some k := by cases k <;> decide

theorem name_inj {j k : Kind} : j.name = k.name ↔ j = k :=
  ⟨fun h => Option.some.inj (by rw [← ofName?_name j, h, ofName?_name]), congrArg name⟩

end Kind

end SchemaDrift
