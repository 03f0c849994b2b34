import SchemaDrift.Schema

/-!
# References

Each definition of a root can be referred to in up to five spellings: by its own identifier and
by its name behind `#/definitions/` or `#/$defs/`, both alone and behind the identifier of the
root. Where two definitions share a spelling, the later one has it.

* `References.find?` looks a reference up by its exact spelling.
* `References.follow` follows a chain of references until it ends, repeats or leads nowhere.
-/

namespace SchemaDrift

/-- The spellings under which the definitions of a root can be found, the latest first. -/
structure References where
  table : List (String × Schema)

namespace References

/-- The spellings of one definition, in the order in which they are entered. -/
def spellings (root : Option String) (name : String) (definition : Schema) : List String :=
  definition.identifier.toList ++
    (match root with
      | some i => [i ++ "#/definitions/" ++ name, i ++ "#/$defs/" ++ name]
      | none => []) ++
    ["#/definitions/" ++ name, "#/$defs/" ++ name]

/-- All spellings of a table of definitions, each with its definition, in the order in which they
are entered. -/
def entered (root : Option String) (definitions : List (String × Schema)) :
    List (String × Schema) :=
  definitions.flatMap fun (name, s) => (spellings root name s).map fun r => (r, s)

def ofRoot (root : Schema) : References :=
  ⟨(entered root.identifier root.definitions).reverse⟩

def find? (refs : References) (spelling : String) : Option Schema := refs.table.lookup spelling

/-- Where a chain of references ends: the references that were followed, the latest first, the
schema they lead to, and the reference that leads nowhere, if that is the end. -/
structure End where
  trail : List String
  schema : Schema
  dangling : Option String

/-- Follows at most `fuel` references that are not in `trail`. -/
def followFrom (refs : References) : Nat → List String → Schema → End
  | 0, trail, s => ⟨trail, s, none⟩
  | fuel + 1, trail, s =>
    match s.reference with
    | none => ⟨trail, s, none⟩
    | some r =>
      if trail.contains r then ⟨trail, s, none⟩
      else
        match refs.find? r with
        | none => ⟨trail, s, some r⟩
        | some target => followFrom refs fuel (r :: trail) target

/-- Follows a chain of references to its end. Every reference that is followed is one of the
table, so one more step than the table has entries is enough. -/
def follow (refs : References) (s : Schema) : End :=
  followFrom refs (refs.table.length + 1) [] s

end References

end SchemaDrift
