import SchemaDrift.Json.Text
import SchemaDrift.Schema.Pointer

/-!
# Faults

Everything that can go wrong is a `Fault`, and `Fault.message` holds the wording of each.
-/

namespace SchemaDrift

/-- What is wrong with a value that stands where a schema, or one of its rules, should stand. -/
inductive Malformation where
  | noSchema (found : Json)
  | unknownKind (found : Json)
  | noNumber (keyword : String)
  | notFinite (keyword : String)
  | noLength (keyword : String)
  | noString (keyword : String)
  | noObject (keyword : String)
  | noArray (keyword : String)
  | noNames (keyword : String)
  deriving Repr

def Malformation.message : Malformation → String
  | .noSchema found => s!"schema must be an object or a boolean, got {found.sortName}"
  | .unknownKind found => s!"unknown type {found.literal}"
  | .noNumber keyword => s!"'{keyword}' must be a number"
  | .notFinite keyword => s!"'{keyword}' must be finite"
  | .noLength keyword => s!"'{keyword}' must be a non-negative integer"
  | .noString keyword => s!"'{keyword}' must be a string"
  | .noObject keyword => s!"'{keyword}' must be an object"
  | .noArray keyword => s!"'{keyword}' must be an array"
  | .noNames keyword => s!"'{keyword}' must be an array of strings"

/-- Why an operation gives no result. -/
inductive Fault where
  /-- A document is no schema; the offending value stands at `location`. -/
  | malformed (what : Malformation) (location : Pointer)
  /-- An integer bound lies beyond the largest double. -/
  | boundTooLarge
  /-- A comparison went deeper than its limit. -/
  | tooDeep (path : String) (limit : Nat)
  /-- A depth limit is no integer. -/
  | limitNoInteger (found : Json)
  /-- A depth limit is below one. -/
  | limitTooSmall (found : Int)
  /-- A memo cannot have a negative capacity. -/
  | negativeCapacity
  /-- A memo without capacity cannot store anything. -/
  | memoFull
  /-- Costs do not form a square; `shape` holds their dimensions. -/
  | notSquare (shape : List Nat)
  /-- A cost is infinite or no number. -/
  | costNotFinite
  /-- A cost is no number, or an integer that has no room in a word of 64 bits. -/
  | noCost
  /-- The parts of an array agree only on the dimensions in `shape`. -/
  | irregular (shape : List Nat)
  /-- The sums of the costs leave the range of doubles. -/
  | noAssignment
  /-- A value names no kind. -/
  | noKind (found : Json)
  /-- A value names no bound. -/
  | noBound (found : Json)
  /-- Two values, given by their sorts, have no order. -/
  | noOrder (relation : Relation) (left right : String)
  /-- A value, given by its sort, stands in the place of a range. -/
  | noRange (sort : String)
  /-- A value, given by its sort, cannot be written as JSON. -/
  | notWritable (sort : String)
  /-- A form has no field of this name. -/
  | unknownField (form field : String)
  /-- Fields of a form are missing. -/
  | missingFields (form : String) (fields : List String)
  deriving Repr

namespace Fault

/-- The dimensions of an array between parentheses, with a comma behind a lone one. -/
def shapeText : List Nat → String
  | [] => "()"
  | [n] => s!"({n},)"
  | n :: ns => s!"({n}" ++ String.join (ns.map fun m => s!", {m}") ++ ")"

def message : Fault → String
  | .malformed what location =>
    let place := if location.isEmpty then "<root>" else location.render
    s!"{what.message} (at {place})"
  | .boundTooLarge => "int too large to convert to float"
  | .tooDeep path limit =>
    s!"diff exceeded maximum depth {limit} at path {Text.quoted path}; " ++
      "the schema may contain a reference cycle"
  | .limitNoInteger found => s!"max_depth must be an int, got {found.sortName}"
  | .limitTooSmall found => s!"max_depth must be >= 1, got {found}"
  | .negativeCapacity => "maxsize must be non-negative"
  | .memoFull => "value too large"
  | .notSquare shape => s!"cost matrix must be square, got shape {shapeText shape}"
  | .costNotFinite => "cost matrix must contain only finite values"
  | .noCost =>
    "ufunc 'isfinite' not supported for the input types, and the inputs could not be safely " ++
      "coerced to any supported types according to the casting rule ''safe''"
  | .irregular shape =>
    "setting an array element with a sequence. The requested array has an inhomogeneous shape " ++
      s!"after {shape.length} dimensions. The detected shape was {shapeText shape} + " ++
      "inhomogeneous part."
  | .noAssignment => "cost matrix is infeasible"
  | .noKind found => s!"{found.literal} is not a valid JsonSchemaType"
  | .noBound found => s!"{found.literal} is not a valid RangeBound"
  | .noOrder relation left right =>
    s!"'{relation.sign}' not supported between instances of '{left}' and '{right}'"
  | .noRange sort => s!"'{sort}' object has no attribute 'bound'"
  | .notWritable sort => s!"Object of type {sort} is not JSON serializable"
  | .unknownField form field => s!"{form}.__init__() got an unexpected keyword argument '{field}'"
  | .missingFields form fields =>
    let noun := if fields.length = 1 then "argument" else "arguments"
    s!"{form}.__init__() missing {fields.length} required positional {noun}: " ++
      String.intercalate " and " (fields.map fun field => s!"'{field}'")

example : shapeText [] = "()" ∧ shapeText [3] = "(3,)" ∧ shapeText [1, 2] = "(1, 2)" := by
  decide +kernel

end Fault

end SchemaDrift
