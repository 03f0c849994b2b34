import SchemaDrift.Schema

/-!
# Effective types

The effective type of a schema is the set of kinds that it admits as far as the schema itself
tells: references are not followed.

* `Schema.typing` derives it from the first of these that is present: `type`, the kind of `const`,
  properties (an object), the branches of `anyOf`, and the negation of everything.
* `Typing.admitted` lists the kinds; a `number` is an `integer` as well.
* `Typing.kindSet` lists them once each in reporting order.
-/

namespace SchemaDrift

/-- An effective type. A list of kinds is kept as it was given. -/
inductive Typing where
  | single (kind : Kind)
  | listed (kinds : List Kind)
  | any
  | never
  deriving DecidableEq, Repr

namespace Typing

def covered (k : Kind) : List Kind :=
  match k with
  | .number => [.number, .integer]
  | k => [k]

/-- All kinds of a type, possibly with repetitions. -/
def admitted : Typing → List Kind
  | .single k => covered k
  | .listed ks => ks.flatMap covered
  | .any => Kind.all
  | .never => []

/-- The kinds of a type as a set in reporting order. -/
def kindSet (t : Typing) : List Kind := Kind.all.filter fun k => t.admitted.contains k

def stored : Typing → List Kind
  | .single k => [k]
  | .listed ks => ks
  | .any => []
  | .never => []

example : (single .number).kindSet = [.number, .integer] := by decide
example : (listed [.null, .string, .null]).kindSet = [.string, .null] := by decide

theorem mem_kindSet {k : Kind} {t : Typing} : k ∈ t.kindSet ↔ k ∈ t.admitted := by
  simp [kindSet, Kind.mem_all]

end Typing

namespace Schema

mutual

def typing : Schema → Typing
  | ⟨kinds, const, _, _, properties, _, _, _, anyOf, negated, _, _, _⟩ =>
    match kinds with
    | some [k] => .single k
    | some ks => .listed ks
    | none =>
      match const with
      | some value => .single value.kind
      | none =>
        if !properties.isEmpty then .single .object
        else
          match anyOf with
          | some branches =>
            let kinds := branchKinds branches
            .listed (Kind.all.filter fun k => kinds.contains k)
          | none =>
            match negated with
            | some s => if s.isUnconstrained then .never else .any
            | none => .any

def branchKinds : List Schema → List Kind
  | [] => []
  | s :: rest => (typing s).admitted ++ branchKinds rest

end

example : everything.typing = .any ∧ nothing.typing = .never := by decide

end Schema

end SchemaDrift
