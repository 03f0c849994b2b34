import SchemaDrift.Proofs.Schema.Agreement

/-!
# What stands in rewritten schemas

Before a schema is compared its references are followed, its list of kinds is split up and its
constant becomes properties. None of this brings in a schema that stands neither in the schema nor
in a definition, apart from the schemas of constants.

* `Schema.child_project`, `Schema.child_split` and `Schema.child_unfoldConst` say where the children
  of a rewritten schema come from.
* `Schema.Throughout.split`, `Schema.Throughout.unfoldConst` and `References.follow_throughout`
  carry over what holds of all parts of a schema.
-/

namespace SchemaDrift

namespace Schema

variable {s u : Schema} {P : Schema → Prop}

theorem not_child_everything : ¬Child u everything := by
  intro h
  cases h <;> contradiction

theorem eq_everything_of_child_nothing (h : Child u nothing) : u = everything := by
  cases h with
  | negated h => exact (Option.some.inj h).symm
  | _ => contradiction

theorem child_project {k : Kind} (h : Child u (s.project k)) : Child u s := by
  cases k with
  | object =>
    cases h with
    | property h => exact .property h
    | additional h => exact .additional h
    | _ => contradiction
  | array =>
    cases h with
    | every h => exact .every h
    | position h hmem => exact .position h hmem
    | _ => contradiction
  | _ => cases h <;> contradiction

theorem child_split (h : Child u s.split) : Child u s ∨ ∃ k, u = s.project k := by
  unfold split split? at h
  split at h
  · refine .inr ?_
    cases h with
    | branch branches hmem =>
      obtain rfl := Option.some.inj branches
      obtain ⟨k, -, rfl⟩ := List.mem_map.mp hmem
      exact ⟨k, rfl⟩
    | _ => contradiction
  · exact .inl h

/-- What holds of all parts of a schema holds of all parts after its kinds have been split up, if it
holds of the new schema itself and of what the schema says of each kind. -/
theorem Throughout.split (h : s.Throughout P) (here : P s.split) (kinds : ∀ k, P (s.project k)) :
    s.split.Throughout P := by
  refine throughout_iff.mpr ⟨here, fun u hu => ?_⟩
  rcases child_split hu with kept | ⟨k, rfl⟩
  · exact h.child kept
  · exact throughout_iff.mpr ⟨kinds k, fun w hw => h.child (child_project hw)⟩

/-- What stands in the schema of a constant is the schema of a constant. -/
theorem child_ofConst {x : Json} (h : Child u (ofConst x)) :
    ∃ fs key y, x = .obj fs ∧ (key, y) ∈ fs ∧ u = ofConst y := by
  by_cases object : x.kind = .object
  · obtain ⟨fs, rfl⟩ := obj_of_kind object
    cases h with
    | property h =>
      obtain ⟨y, hy, rfl⟩ := mem_constTable h
      exact ⟨fs, _, y, rfl, hy, rfl⟩
    | _ => contradiction
  · rw [ofConst_of_kind object] at h
    cases h <;> contradiction

/-- What follows from a property of constants that the values of an object have as well holds of all
parts of the schema of a constant. -/
theorem throughout_ofConst_of {Q : Json → Prop} (here : ∀ x, Q x → P (ofConst x))
    (value : ∀ fs key y, Q (.obj fs) → (key, y) ∈ fs → Q y) {x : Json} (hx : Q x) :
    (ofConst x).Throughout P := by
  induction x using Json.parts_induction with
  | obj fs ih =>
    refine throughout_iff.mpr ⟨here _ hx, fun u hu => ?_⟩
    obtain ⟨_, key, y, same, hy, rfl⟩ := child_ofConst hu
    obtain rfl := Json.obj.inj same
    exact ih key y hy (value _ key y hx hy)
  | _ =>
    refine throughout_iff.mpr ⟨here _ hx, fun u hu => ?_⟩
    cases hu <;> contradiction

theorem throughout_ofConst (here : ∀ x, P (ofConst x)) (x : Json) : (ofConst x).Throughout P :=
  throughout_ofConst_of (Q := fun _ => True) (fun y _ => here y) (fun _ _ _ _ _ => trivial) trivial

theorem child_unfoldConst (h : Child u s.unfoldConst) :
    Child u s ∨ ∃ x, s.const = some x ∧ Child u (ofConst x) := by
  by_cases object : ∃ fs, s.const = some (.obj fs)
  · obtain ⟨fs, const⟩ := object
    rw [unfoldConst_of_obj const] at h
    cases h with
    | property h =>
      rcases Fields.mem_putAll h with added | kept
      · exact .inr ⟨_, const, .property added⟩
      · exact .inl (.property kept)
    | additional h => exact .inl (.additional h)
    | every h => exact .inl (.every h)
    | position h hmem => exact .inl (.position h hmem)
    | branch h hmem => exact .inl (.branch h hmem)
    | negated h => exact .inl (.negated h)
    | definition h => exact .inl (.definition h)
  · have same : s.unfoldConst = s := unfoldConst_of_kind fun x const kind => by
      obtain ⟨fs, rfl⟩ := obj_of_kind kind
      exact object ⟨fs, const⟩
    rw [same] at h
    exact .inl h

/-- What holds of all parts of a schema holds of all parts after its constant has become
properties, if it holds of the new schema itself and of the schemas of the constant. -/
theorem Throughout.unfoldConst (h : s.Throughout P) (here : P s.unfoldConst)
    (consts : ∀ x, s.const = some x → (ofConst x).Throughout P) : s.unfoldConst.Throughout P := by
  refine throughout_iff.mpr ⟨here, fun u hu => ?_⟩
  rcases child_unfoldConst hu with kept | ⟨x, const, added⟩
  · exact h.child kept
  · exact (consts x const).child added

end Schema

/-- What holds of all parts of a root holds of all parts of what its references lead to. -/
theorem References.follow_throughout {P : Schema → Prop} {root s : Schema}
    (hroot : root.Throughout P) (hs : s.Throughout P) :
    ((ofRoot root).follow s).schema.Throughout P := by
  have definitions : Fields.Aligned
      (fun _ u v => u.identifier = v.identifier ∧ u = v ∧ u.Throughout P)
      root.definitions root.definitions :=
    List.forall₂_same.mpr fun f hf => ⟨rfl, rfl, rfl, hroot.child (.definition hf)⟩
  obtain ⟨-, find⟩ := ofRoot_related rfl definitions
  exact (followFrom_related (fun u v same => congrArg _ same.1) find _ [] ⟨rfl, hs⟩).2

end SchemaDrift
