import SchemaDrift.Json.Equal
import SchemaDrift.Schema

/-!
# Likeness of schemas

Two schemas are alike when they agree rule by rule as written: tables agree whatever the order of
their names, bounds agree by value, and constants agree in the sense of `Json.alike`, which takes
booleans for numbers. References are compared by their text and not followed.
-/

namespace SchemaDrift

def boundsAlike (a b : Option Double) : Bool :=
  match a, b with
  | none, none => true
  | some x, some y => (Number.double x).same (.double y)
  | _, _ => false

def NumberRules.alike (a b : NumberRules) : Bool :=
  boundsAlike a.minimum b.minimum && boundsAlike a.maximum b.maximum &&
    boundsAlike a.exclusiveMinimum b.exclusiveMinimum &&
    boundsAlike a.exclusiveMaximum b.exclusiveMaximum

namespace Schema

def constAlike (a b : Option Json) : Bool :=
  match a, b with
  | none, none => true
  | some x, some y => x.alike y
  | _, _ => false

/-- Whether every name of `fs` is a name of `gs`. -/
def namesWithin (fs gs : List (String × Schema)) : Bool :=
  fs.all fun f => (gs.lookup f.1).isSome

mutual

/-- Whether two schemas agree as written. -/
def alike : Schema → Schema → Bool
  | ⟨kinds, const, number, text, properties, required, additional, items, anyOf, negated,
      reference, identifier, definitions⟩, t =>
    decide (kinds = t.kinds) && constAlike const t.const && number.alike t.number &&
      decide (text = t.text) &&
      (namesWithin t.properties properties && alikeTable properties t.properties) &&
      decide (required = t.required) && alikeOption additional t.additional &&
      alikeItems items t.items && alikeBranches anyOf t.anyOf && alikeOption negated t.negated &&
      decide (reference = t.reference) && decide (identifier = t.identifier) &&
      (namesWithin t.definitions definitions && alikeTable definitions t.definitions)
termination_by structural s => s

/-- Whether every schema of the first table has a partner of its name in the second. -/
def alikeTable : List (String × Schema) → List (String × Schema) → Bool
  | [], _ => true
  | (name, s) :: rest, table =>
    (match table.lookup name with
      | some t => alike s t
      | none => false) && alikeTable rest table
termination_by structural s => s

def alikeList : List Schema → List Schema → Bool
  | [], [] => true
  | s :: ss, t :: ts => alike s t && alikeList ss ts
  | _, _ => false
termination_by structural s => s

def alikeOption : Option Schema → Option Schema → Bool
  | none, none => true
  | some s, some t => alike s t
  | _, _ => false
termination_by structural s => s

def alikeItems : Option (Items Schema) → Option (Items Schema) → Bool
  | none, none => true
  | some (.every s), some (.every t) => alike s t
  | some (.positions ss), some (.positions ts) => alikeList ss ts
  | _, _ => false
termination_by structural s => s

def alikeBranches : Option (List Schema) → Option (List Schema) → Bool
  | none, none => true
  | some ss, some ts => alikeList ss ts
  | _, _ => false
termination_by structural s => s

end

example : everything.alike everything = true ∧ everything.alike nothing = false := by decide

end Schema

end SchemaDrift
