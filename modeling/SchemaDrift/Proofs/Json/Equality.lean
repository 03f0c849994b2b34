import Mathlib.Data.Option.Basic
import SchemaDrift.Json.Equal
import SchemaDrift.Proofs.Fields
import SchemaDrift.Proofs.Number

/-!
# Equality of JSON values and their parts

* `Json.Part` says that a value stands somewhere in another one, and `Json.Throughout` that all
  parts of a value have a property.
* `Json.DistinctKeys` holds of an object without repeated keys, `Json.NotNan` of any value but
  `nan`.
* `Json.fieldsOf` are the fields of a value, and `Json.leaf?` is the value if it is no object.
* `Json.equal_self`: a value with these properties throughout is equal to itself.
* `Json.lookup_equal`: equal objects have equal values under every key.
-/

namespace SchemaDrift

namespace Json

/-! ## Parts -/

/-- The first value stands somewhere in the second one, or is that one. -/
inductive Part : Json → Json → Prop where
  | whole (x : Json) : Part x x
  | item {x y : Json} {ys : List Json} : Part x y → y ∈ ys → Part x (.arr ys)
  | field {x y : Json} {key : String} {fs : List (String × Json)} :
      Part x y → (key, y) ∈ fs → Part x (.obj fs)

def Throughout (P : Json → Prop) (x : Json) : Prop := ∀ y, Part y x → P y

/-- No key of an object is repeated. -/
def DistinctKeys : Json → Prop
  | .obj fs => (Fields.keys fs).Nodup
  | _ => True

def NotNan (x : Json) : Prop := x ≠ .num (.double .nan)

namespace Throughout

variable {P : Json → Prop}

theorem here {x : Json} (h : x.Throughout P) : P x := h x (.whole x)

theorem item {xs : List Json} (h : (Json.arr xs).Throughout P) {x : Json} (hx : x ∈ xs) :
    x.Throughout P :=
  fun y hy => h y (.item hy hx)

theorem field {fs : List (String × Json)} (h : (Json.obj fs).Throughout P) {key : String} {x : Json}
    (hx : (key, x) ∈ fs) : x.Throughout P :=
  fun y hy => h y (.field hy hx)

end Throughout

section

variable {P : Json → Prop}

@[simp] theorem throughout_null : Json.null.Throughout P ↔ P .null :=
  ⟨Throughout.here, fun h _ hy => by cases hy; exact h⟩

@[simp] theorem throughout_bool {b : Bool} : (Json.bool b).Throughout P ↔ P (.bool b) :=
  ⟨Throughout.here, fun h _ hy => by cases hy; exact h⟩

@[simp] theorem throughout_num {n : Number} : (Json.num n).Throughout P ↔ P (.num n) :=
  ⟨Throughout.here, fun h _ hy => by cases hy; exact h⟩

@[simp] theorem throughout_str {s : String} : (Json.str s).Throughout P ↔ P (.str s) :=
  ⟨Throughout.here, fun h _ hy => by cases hy; exact h⟩

@[simp] theorem throughout_arr {xs : List Json} :
    (Json.arr xs).Throughout P ↔ P (.arr xs) ∧ ∀ x ∈ xs, x.Throughout P := by
  constructor
  · exact fun h => ⟨h.here, fun x hx => h.item hx⟩
  · rintro ⟨here, below⟩ y hy
    cases hy with
    | whole => exact here
    | item part hx => exact below _ hx y part

@[simp] theorem throughout_obj {fs : List (String × Json)} :
    (Json.obj fs).Throughout P ↔ P (.obj fs) ∧ ∀ f ∈ fs, f.2.Throughout P := by
  constructor
  · exact fun h => ⟨h.here, fun (_, _) hf => h.field hf⟩
  · rintro ⟨here, below⟩ y hy
    cases hy with
    | whole => exact here
    | field part hx => exact below _ hx y part

end

theorem sizeOf_lt_arr {x : Json} {xs : List Json} (h : x ∈ xs) : sizeOf x < sizeOf (Json.arr xs) := by
  have smaller := List.sizeOf_lt_of_mem h
  rw [Json.arr.sizeOf_spec]
  omega

theorem sizeOf_lt_obj {key : String} {x : Json} {fs : List (String × Json)} (h : (key, x) ∈ fs) :
    sizeOf x < sizeOf (Json.obj fs) := by
  have smaller := List.sizeOf_lt_of_mem h
  rw [Prod.mk.sizeOf_spec] at smaller
  rw [Json.obj.sizeOf_spec]
  omega

/-- What holds of a value whenever it holds of all that stands directly in it holds of every
value. -/
@[elab_as_elim]
theorem parts_induction {motive : Json → Prop} (null : motive .null)
    (bool : ∀ b, motive (.bool b)) (num : ∀ n, motive (.num n)) (str : ∀ s, motive (.str s))
    (arr : ∀ xs, (∀ x ∈ xs, motive x) → motive (.arr xs))
    (obj : ∀ fs, (∀ key x, (key, x) ∈ fs → motive x) → motive (.obj fs)) : ∀ x, motive x
  | .null => null
  | .bool b => bool b
  | .num n => num n
  | .str s => str s
  | .arr xs => arr xs fun x _ => parts_induction null bool num str arr obj x
  | .obj fs => obj fs fun _ x _ => parts_induction null bool num str arr obj x
termination_by x => sizeOf x
decreasing_by
  · exact sizeOf_lt_arr ‹_›
  · exact sizeOf_lt_obj ‹_›

/-! ## Fields and leaves -/

/-- The fields of a value; it has none unless it is an object. -/
def fieldsOf : Json → List (String × Json)
  | .obj fields => fields
  | _ => []

/-- A value that is no object. -/
def leaf? : Json → Option Json
  | .obj _ => none
  | x => some x

/-- A value is an object, or it is a leaf and has no fields. -/
theorem object_or_leaf (x : Json) :
    (∃ fields, x = .obj fields) ∨ x.leaf? = some x ∧ x.fieldsOf = [] ∧ x.kind ≠ .object := by
  cases x with
  | obj fields => exact .inl ⟨fields, rfl⟩
  | _ => exact .inr ⟨rfl, rfl, nofun⟩

theorem leaf_of_kind {x : Json} (h : x.kind ≠ .object) : x.leaf? = some x ∧ x.fieldsOf = [] := by
  rcases x.object_or_leaf with ⟨fields, rfl⟩ | ⟨leaf, none, -⟩
  · exact absurd rfl h
  · exact ⟨leaf, none⟩

theorem Throughout.fieldOf {P : Json → Prop} {x : Json} (h : x.Throughout P) {name : String}
    {a : Json} (ha : x.fieldsOf.lookup name = some a) : a.Throughout P := by
  rcases x.object_or_leaf with ⟨fields, rfl⟩ | ⟨-, none, -⟩
  · exact h.field (Fields.mem_of_lookup ha)
  · rw [none] at ha
    exact nomatch ha

/-! ## Equality -/

theorem agreeItems_iff {scalars : Json → Json → Bool} {xs ys : List Json} :
    agreeItems scalars xs ys = true ↔ List.Forall₂ (fun x y => agree scalars x y = true) xs ys := by
  induction xs generalizing ys with
  | nil => cases ys <;> simp [agreeItems]
  | cons x xs ih =>
    cases ys with
    | nil => simp [agreeItems]
    | cons y ys => simp [agreeItems, ih]

theorem agreeFields_iff {scalars : Json → Json → Bool} {fs gs : List (String × Json)} :
    agreeFields scalars fs gs = true ↔
      ∀ key x, (key, x) ∈ fs → ∃ y, gs.lookup key = some y ∧ agree scalars x y = true := by
  induction fs with
  | nil => simp [agreeFields]
  | cons f rest ih =>
    obtain ⟨name, y⟩ := f
    rw [agreeFields, Bool.and_eq_true, ih]
    constructor
    · rintro ⟨first, others⟩ key x h
      rcases List.mem_cons.mp h with h | h
      · obtain ⟨rfl, rfl⟩ := Prod.mk.inj h
        split at first
        · next z found => exact ⟨z, found, first⟩
        · exact nomatch first
      · exact others key x h
    · intro h
      obtain ⟨z, found, first⟩ := h name y List.mem_cons_self
      rw [found]
      exact ⟨first, fun key x hx => h key x (List.mem_cons_of_mem _ hx)⟩

theorem keysWithin_iff {fs gs : List (String × Json)} :
    keysWithin fs gs = true ↔ ∀ key, (fs.lookup key).isSome → (gs.lookup key).isSome := by
  rw [keysWithin, List.all_eq_true]
  constructor
  · intro h key hkey
    obtain ⟨f, hf, rfl⟩ := List.mem_map.mp (Fields.lookup_isSome_iff.mp hkey)
    exact h f hf
  · intro h f hf
    exact h f.1 (Fields.lookup_isSome_iff.mpr (List.mem_map_of_mem (f := (·.1)) hf))

theorem agree_obj {scalars : Json → Json → Bool} {fs gs : List (String × Json)} :
    agree scalars (.obj fs) (.obj gs) = true ↔
      keysWithin gs fs = true ∧ agreeFields scalars fs gs = true := by
  rw [agree, Bool.and_eq_true]

/-- A value without `nan` and without repeated keys is equal to itself. -/
theorem equal_self (x : Json) (distinct : x.Throughout DistinctKeys)
    (notNan : x.Throughout NotNan) : x.equal x = true := by
  induction x using parts_induction with
  | null => rfl
  | bool b => cases b <;> rfl
  | num n =>
    refine Number.same_self fun h => notNan.here ?_
    rw [h]
  | str s => exact beq_self_eq_true s
  | arr xs ih =>
    show agreeItems scalarEqual xs xs = true
    rw [agreeItems_iff, List.forall₂_same]
    exact fun x hx => ih x hx (distinct.item hx) (notNan.item hx)
  | obj fs ih =>
    show agree scalarEqual (.obj fs) (.obj fs) = true
    rw [agree_obj, keysWithin_iff, agreeFields_iff]
    refine ⟨fun _ h => h, fun key x hx => ⟨x, ?_, ?_⟩⟩
    · exact Fields.lookup_of_mem distinct.here hx
    · exact ih key x hx (distinct.field hx) (notNan.field hx)

/-- Equal values are of one kind. -/
theorem kind_equal {x y : Json} (h : x.equal y = true) : x.kind = y.kind := by
  cases x <;> cases y <;> first | rfl | exact nomatch h

/-- Objects that agree have values that agree under every key. -/
theorem lookup_agree {scalars : Json → Json → Bool} {fs gs : List (String × Json)}
    (h : agree scalars (.obj fs) (.obj gs) = true) (key : String) :
    Option.Rel (fun x y => agree scalars x y = true) (fs.lookup key) (gs.lookup key) := by
  obtain ⟨within, fields⟩ := agree_obj.mp h
  rcases left : fs.lookup key with _ | x
  · have absent : ¬(gs.lookup key).isSome := by
      intro present
      have found := keysWithin_iff.mp within key present
      rw [left] at found
      exact nomatch found
    rw [Option.not_isSome_iff_eq_none.mp absent]
    exact .none
  · obtain ⟨y, right, same⟩ := agreeFields_iff.mp fields key x (Fields.mem_of_lookup left)
    rw [right]
    exact .some same

/-- Where no key is repeated on the left, it is enough that they do. -/
theorem agree_obj_iff {scalars : Json → Json → Bool} {fs gs : List (String × Json)}
    (distinct : (Fields.keys fs).Nodup) :
    agree scalars (.obj fs) (.obj gs) = true ↔
      ∀ key, Option.Rel (fun x y => agree scalars x y = true) (fs.lookup key) (gs.lookup key) := by
  refine ⟨lookup_agree, fun h => ?_⟩
  rw [agree_obj, keysWithin_iff, agreeFields_iff]
  refine ⟨fun key present => ?_, fun key x hx => ?_⟩
  · have value := h key
    generalize gs.lookup key = v at value present
    generalize fs.lookup key = u at value
    cases value with
    | none => exact present
    | some => rfl
  · have value := h key
    rw [Fields.lookup_of_mem distinct hx] at value
    generalize gs.lookup key = v at value
    cases value with
    | some same => exact ⟨_, rfl, same⟩

/-- Equal objects have equal values under every key. -/
theorem lookup_equal {fs gs : List (String × Json)} (h : (Json.obj fs).equal (.obj gs) = true)
    (key : String) :
    Option.Rel (fun x y => x.equal y = true) (fs.lookup key) (gs.lookup key) :=
  lookup_agree h key

end Json

end SchemaDrift
