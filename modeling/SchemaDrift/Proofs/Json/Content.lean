import Mathlib
import SchemaDrift.Proofs.ExactValue
import SchemaDrift.Proofs.Json.Equality

/-!
# What a JSON value is

The content of a value forgets how the value is written: the order of the keys, and whether a
number is an integer or a double. Values are equal if and only if they have one content.

* `Content` are the JSON values themselves, of which an object is a map from keys to values.
* `Json.content` is the content of a value.
* `Json.Regular` are the values that a JSON text without `NaN` stands for.
* `Json.equal_iff_content` compares contents, and `Json.equal_exact` draws the consequences.
-/

namespace SchemaDrift

/-- A JSON value, whatever the way in which it is written. -/
inductive Content where
  | null
  | bool (value : Bool)
  | num (value : Option (WithBot (WithTop ℚ)))
  | str (text : String)
  | arr (items : List Content)
  | obj (value? : String → Option Content)

namespace Json

mutual

def content : Json → Content
  | .null => .null
  | .bool b => .bool b
  | .num n => .num n.extended?
  | .str s => .str s
  | .arr xs => .arr (itemContents xs)
  | .obj fs => .obj (fieldContent? fs)

def itemContents : List Json → List Content
  | [] => []
  | x :: xs => content x :: itemContents xs

def fieldContent? : List (String × Json) → String → Option Content
  | [], _ => none
  | (name, x) :: rest, key => if key = name then some (content x) else fieldContent? rest key

end

theorem fieldContent?_eq (fs : List (String × Json)) (key : String) :
    fieldContent? fs key = (fs.lookup key).map content := by
  induction fs with
  | nil => rfl
  | cons f rest ih =>
    rw [fieldContent?, Fields.lookup_cons, ih]
    split <;> simp_all

/-- A value without repeated keys and without `nan`. -/
def Regular (x : Json) : Prop := x.Throughout DistinctKeys ∧ x.Throughout NotNan

namespace Regular

theorem item {xs : List Json} (h : (Json.arr xs).Regular) {x : Json} (hx : x ∈ xs) : x.Regular :=
  ⟨h.1.item hx, h.2.item hx⟩

theorem field {fs : List (String × Json)} (h : (Json.obj fs).Regular) {key : String} {x : Json}
    (hx : (key, x) ∈ fs) : x.Regular :=
  ⟨h.1.field hx, h.2.field hx⟩

end Regular

/-! ## Equality of contents -/

/-- Numbers other than `nan` are the same if and only if they have one content. -/
theorem same_iff_content {m : Number} (notNan : NotNan (.num m)) (n : Number) :
    m.same n = true ↔ content (.num m) = content (.num n) := by
  have other : m ≠ .double .nan := fun h => notNan (congrArg Json.num h)
  obtain ⟨p, stands⟩ := Number.place_isSome other
  have value := Number.extended_eq m
  rw [stands, Option.map_some] at value
  simp only [Number.same_iff_extended, content, Content.num.injEq, value, Option.some.injEq]
  exact ⟨fun ⟨_, left, right⟩ => by rw [left, right], fun h => ⟨_, rfl, h.symm⟩⟩

/-- Lists agree item by item if and only if their items have the same contents. -/
theorem agreeItems_iff_contents {xs ys : List Json}
    (h : ∀ x ∈ xs, ∀ y, x.equal y = true ↔ x.content = y.content) :
    agreeItems scalarEqual xs ys = true ↔ itemContents xs = itemContents ys := by
  induction xs generalizing ys with
  | nil => cases ys <;> simp [agreeItems, itemContents]
  | cons x xs ih =>
    cases ys with
    | nil => simp [agreeItems, itemContents]
    | cons y ys =>
      have first : agree scalarEqual x y = true ↔ x.content = y.content :=
        h x List.mem_cons_self y
      have others : agreeItems scalarEqual xs ys = true ↔ itemContents xs = itemContents ys :=
        ih fun x hx => h x (List.mem_cons_of_mem _ hx)
      rw [agreeItems, Bool.and_eq_true, first, others, itemContents, itemContents,
        List.cons.injEq]

/-- The values under one key, if there are any, are equal if and only if they have one content. -/
theorem rel_iff_contents {u v : Option Json}
    (h : ∀ x, u = some x → ∀ y, x.equal y = true ↔ x.content = y.content) :
    Option.Rel (fun x y => agree scalarEqual x y = true) u v ↔ u.map content = v.map content := by
  cases u with
  | none => cases v <;> simp
  | some x =>
    cases v with
    | none => simp
    | some y =>
      have same : agree scalarEqual x y = true ↔ x.content = y.content := h x rfl y
      simpa using same

/-- Regular values are equal if and only if they have one content. -/
theorem equal_iff_content {x : Json} (regular : x.Regular) (y : Json) :
    x.equal y = true ↔ x.content = y.content := by
  induction x using parts_induction generalizing y with
  | null => cases y <;> simp [equal, agree, scalarEqual, content]
  | bool b => cases y <;> simp [equal, agree, scalarEqual, content]
  | str s => cases y <;> simp [equal, agree, scalarEqual, content]
  | num m =>
    cases y with
    | num n => exact same_iff_content regular.2.here n
    | _ => simp [equal, agree, scalarEqual, content]
  | arr xs ih =>
    cases y with
    | arr ys =>
      rw [content, content, Content.arr.injEq]
      exact agreeItems_iff_contents fun x hx => ih x hx (regular.item hx)
    | _ => simp [equal, agree, content]
  | obj fs ih =>
    cases y with
    | obj gs =>
      rw [content, content, Content.obj.injEq, funext_iff]
      refine (agree_obj_iff regular.1.here).trans (forall_congr' fun key => ?_)
      rw [fieldContent?_eq, fieldContent?_eq]
      refine rel_iff_contents fun x found => ?_
      have member := Fields.mem_of_lookup found
      exact ih key x member (regular.field member)
    | _ => simp [equal, agree, content]

/-- Equality of regular values is an equivalence that keeps the kind, and values are equal if and
only if they are one value but for the way in which they are written. -/
theorem equal_exact :
    Equivalence (fun x y : {x : Json // x.Regular} => x.val.equal y.val = true) ∧
      (∀ x y : {x : Json // x.Regular}, x.val.equal y.val = true → x.val.kind = y.val.kind) ∧
      ∀ x y : {x : Json // x.Regular},
        x.val.equal y.val = true ↔ x.val.content = y.val.content := by
  have contents (x y : {x : Json // x.Regular}) :
      x.val.equal y.val = true ↔ x.val.content = y.val.content := equal_iff_content x.property y.val
  refine ⟨⟨fun x => ?_, fun {x y} h => ?_, fun {x y z} h k => ?_⟩, fun x y => kind_equal, contents⟩
  · exact (contents x x).mpr rfl
  · exact (contents y x).mpr ((contents x y).mp h).symm
  · exact (contents x z).mpr (((contents x y).mp h).trans ((contents y z).mp k))

end Json

end SchemaDrift
