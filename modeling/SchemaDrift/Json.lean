import SchemaDrift.Kind
import SchemaDrift.Number

/-!
# JSON values

A JSON value keeps the keys of an object in the order in which they were written. Integers and
doubles are told apart. Keys and strings are sequences of scalar values, so no string has half of a
surrogate pair in it.

* `Json.kind` is the kind of a value; every number has the kind `number`.
* `Json.sortName` is the word for the sort of a value in messages.
-/

namespace SchemaDrift

inductive Json where
  | null
  | bool (value : Bool)
  | num (value : Number)
  | str (text : String)
  | arr (items : List Json)
  | obj (fields : List (String × Json))
  deriving Repr

namespace Json

def kind : Json → Kind
  | .null => .null
  | .bool _ => .boolean
  | .num _ => .number
  | .str _ => .string
  | .arr _ => .array
  | .obj _ => .object

/-- The word for the sort of a value in messages; it tells integers from doubles. -/
def sortName : Json → String
  | .null => "NoneType"
  | .bool _ => "bool"
  | .num (.int _) => "int"
  | .num (.double _) => "float"
  | .str _ => "str"
  | .arr _ => "list"
  | .obj _ => "dict"

end Json

end SchemaDrift
