import SchemaDrift.Json

/-!
# Schemas

A schema is a tree of rules. Rules on numbers and on strings are blocks of their own; the rules on
objects and arrays hold further schemas. Every rule but the tables and the required names may be
absent, and an absent rule admits everything.

* `Schema.everything` and `Schema.nothing` are the schemas that admit every value and none.
* `Schema.isUnconstrained` says that a schema has no rule at all; an identifier and a table of
  definitions are no rules.
-/

namespace SchemaDrift

structure NumberRules where
  minimum : Option Double
  maximum : Option Double
  exclusiveMinimum : Option Double
  exclusiveMaximum : Option Double
  deriving DecidableEq, Repr

def NumberRules.none : NumberRules := ⟨.none, .none, .none, .none⟩

def NumberRules.isEmpty (rules : NumberRules) : Bool := decide (rules = .none)

structure StringRules where
  format : Option String
  pattern : Option String
  minLength : Option Nat
  maxLength : Option Nat
  deriving DecidableEq, Repr

def StringRules.none : StringRules := ⟨.none, .none, .none, .none⟩

def StringRules.isEmpty (rules : StringRules) : Bool := decide (rules = .none)

/-- The rule on the items of an array: one for every item, or one for each position. -/
inductive Items (σ : Type) where
  | every (rule : σ)
  | positions (rules : List σ)
  deriving Repr

/-- A schema. The table of definitions is filled at the root of a document only, and the required
names are a sorted set. -/
structure Schema where
  kinds : Option (List Kind)
  const : Option Json
  number : NumberRules
  text : StringRules
  properties : List (String × Schema)
  required : List String
  additional : Option Schema
  items : Option (Items Schema)
  anyOf : Option (List Schema)
  negated : Option Schema
  reference : Option String
  identifier : Option String
  definitions : List (String × Schema)

namespace Schema

/-- The schema without rules, which admits every value. -/
def everything : Schema where
  kinds := none
  const := none
  number := .none
  text := .none
  properties := []
  required := []
  additional := none
  items := none
  anyOf := none
  negated := none
  reference := none
  identifier := none
  definitions := []

instance : Inhabited Schema := ⟨everything⟩

def nothing : Schema := { everything with negated := some everything }

/-- Whether a schema has no rules at all. -/
def isUnconstrained (s : Schema) : Bool :=
  s.kinds.isNone && s.const.isNone && s.number.isEmpty && s.text.isEmpty &&
    s.properties.isEmpty && s.required.isEmpty && s.additional.isNone && s.items.isNone &&
    s.anyOf.isNone && s.negated.isNone && s.reference.isNone

example : everything.isUnconstrained = true ∧ nothing.isUnconstrained = false := by decide

end Schema

end SchemaDrift
