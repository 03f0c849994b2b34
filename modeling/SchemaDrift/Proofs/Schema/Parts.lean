import SchemaDrift.Schema

/-!
# The parts of a schema

* `Schema.Child` says that a schema stands directly in another one, `Schema.Part` that it stands
  somewhere in it.
* `Schema.Throughout` says that all parts of a schema have a property.
* `Schema.child_induction` is induction over the parts of a schema.
-/

namespace SchemaDrift.Schema

/-- The first schema stands directly in the second one. -/
inductive Child : Schema → Schema → Prop where
  | property {u s : Schema} {name : String} : (name, u) ∈ s.properties → Child u s
  | additional {u s : Schema} : s.additional = some u → Child u s
  | every {u s : Schema} : s.items = some (.every u) → Child u s
  | position {u s : Schema} {us : List Schema} : s.items = some (.positions us) → u ∈ us → Child u s
  | branch {u s : Schema} {us : List Schema} : s.anyOf = some us → u ∈ us → Child u s
  | negated {u s : Schema} : s.negated = some u → Child u s
  | definition {u s : Schema} {name : String} : (name, u) ∈ s.definitions → Child u s

/-- The first schema stands somewhere in the second one, or is that one. -/
inductive Part : Schema → Schema → Prop where
  | whole (s : Schema) : Part s s
  | inside {u v s : Schema} : Part u v → Child v s → Part u s

theorem Part.trans {u v s : Schema} (h : Part u v) (hv : Part v s) : Part u s := by
  induction hv with
  | whole => exact h
  | inside _ child ih => exact .inside ih child

def Throughout (P : Schema → Prop) (s : Schema) : Prop := ∀ u, Part u s → P u

namespace Throughout

variable {P : Schema → Prop} {s : Schema}

theorem here (h : s.Throughout P) : P s := h s (.whole s)

theorem child (h : s.Throughout P) {u : Schema} (hu : Child u s) : u.Throughout P :=
  fun v hv => h v (.inside hv hu)

theorem part {u : Schema} (h : s.Throughout P) (hu : Part u s) : u.Throughout P := by
  induction hu with
  | whole => exact h
  | inside _ hv ih => exact ih (h.child hv)

end Throughout

theorem throughout_iff {P : Schema → Prop} {s : Schema} :
    s.Throughout P ↔ P s ∧ ∀ u, Child u s → u.Throughout P := by
  constructor
  · exact fun h => ⟨h.here, fun u hu => h.child hu⟩
  · rintro ⟨here, below⟩ u hu
    cases hu with
    | whole => exact here
    | inside part child => exact below _ child u part

theorem sizeOf_child {u s : Schema} (h : Child u s) : sizeOf u < sizeOf s := by
  obtain ⟨kinds, const, number, text, properties, required, additional, items, anyOf, negated,
    reference, identifier, definitions⟩ := s
  rw [mk.sizeOf_spec]
  cases h with
  | property hu =>
    have smaller := List.sizeOf_lt_of_mem hu
    rw [Prod.mk.sizeOf_spec] at smaller
    dsimp only at smaller
    omega
  | additional hu =>
    obtain rfl : additional = some u := hu
    rw [Option.some.sizeOf_spec]
    omega
  | every hu =>
    obtain rfl : items = some (.every u) := hu
    rw [Option.some.sizeOf_spec, Items.every.sizeOf_spec]
    omega
  | position hu hmem =>
    obtain rfl : items = some (.positions _) := hu
    have smaller := List.sizeOf_lt_of_mem hmem
    rw [Option.some.sizeOf_spec, Items.positions.sizeOf_spec]
    omega
  | branch hu hmem =>
    obtain rfl : anyOf = some _ := hu
    have smaller := List.sizeOf_lt_of_mem hmem
    rw [Option.some.sizeOf_spec]
    omega
  | negated hu =>
    obtain rfl : negated = some u := hu
    rw [Option.some.sizeOf_spec]
    omega
  | definition hu =>
    have smaller := List.sizeOf_lt_of_mem hu
    rw [Prod.mk.sizeOf_spec] at smaller
    dsimp only at smaller
    omega

/-- What holds of a schema whenever it holds of all that stands directly in it holds of every
schema. -/
@[elab_as_elim]
theorem child_induction {motive : Schema → Prop}
    (step : ∀ s, (∀ u, Child u s → motive u) → motive s) (s : Schema) : motive s :=
  step s fun u _ => child_induction step u
termination_by sizeOf s
decreasing_by exact sizeOf_child ‹_›

end SchemaDrift.Schema
