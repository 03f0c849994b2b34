import SchemaDrift.Text.Quoted

/-!
# Notes

Diagnostic remarks that are made during a comparison. A note has a source and a text; its line puts
both behind the word that marks diagnostics.
-/

namespace SchemaDrift

/-- A diagnostic remark. -/
inductive Note where
  /-- A reference has no definition and is left as it is. -/
  | dangling (reference : String)
  /-- A schema with a list of kinds was split up, on one side or on both. -/
  | split (path : String) (old new : Bool)
  /-- Branches were aligned; entry `i` is the partner of branch `i`. -/
  | aligned (path : String) (columns : List Nat)
  /-- A comparison came to its end. -/
  | compared (changes : Nat)
  /-- The changes are about to be written. -/
  | writing (changes : Nat)
  deriving Repr

namespace Note

def source : Note → String
  | .dangling _ => "json_schema_diff.schema.resolver"
  | .split .. => "json_schema_diff.algorithm.walker"
  | .aligned .. => "json_schema_diff.algorithm.walker"
  | .compared _ => "json_schema_diff.differ"
  | .writing _ => "json_schema_diff.cli"

def truthText (b : Bool) : String := if b then "True" else "False"

def listText (ns : List Nat) : String :=
  "[" ++ String.intercalate ", " (ns.map fun n => toString n) ++ "]"

def text : Note → String
  | .dangling reference => s!"Leaving unresolvable reference {Text.quoted reference} in place"
  | .split path old new =>
    s!"Split multi-typed schema at {Text.quoted path} (lhs={truthText old}, rhs={truthText new})"
  | .aligned path columns =>
    s!"Aligned anyOf branches at {Text.quoted path}: {listText columns}"
  | .compared changes => s!"Diff produced {changes} change(s)"
  | .writing changes => s!"Writing {changes} change(s)"

def line (n : Note) : String := s!"DEBUG {n.source}: {n.text}"

end Note

end SchemaDrift
