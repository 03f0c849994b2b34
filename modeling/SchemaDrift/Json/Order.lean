import SchemaDrift.Json.Equal

/-!
# The order of JSON values

Numbers are ordered by exact value, a boolean standing for one or zero, and texts by code point.
Arrays are ordered by the first items that are not alike, and a shorter array comes before those
that go on. All other pairs have no order.

* `Json.related` compares two values, or returns the pair that has no order.
* `Json.isVoid` singles out the values that count as nothing.
-/

namespace SchemaDrift.Json

/-- Whether a value counts as nothing: `null`, `false`, zero, and whatever is empty. -/
def isVoid : Json → Bool
  | .null => true
  | .bool b => !b
  | .num n => n.same (.int 0)
  | .str s => s.isEmpty
  | .arr xs => xs.isEmpty
  | .obj fs => fs.isEmpty

/-- Whether two values that are no arrays are related in the given way. -/
def scalarsRelated (r : Relation) (x y : Json) : Except (Json × Json) Bool :=
  match x, y with
  | .str a, .str b => .ok (r.holds (compare a b))
  | _, _ =>
    match x.asNumber?, y.asNumber? with
    | some a, some b => .ok (a.related r b)
    | _, _ => .error (x, y)

mutual

/-- Whether two values are related in the given way, or the pair that has no order. -/
def related (r : Relation) : Json → Json → Except (Json × Json) Bool
  | .arr xs, .arr ys => itemsRelated r xs ys
  | .arr xs, y => .error (.arr xs, y)
  | .null, y => scalarsRelated r .null y
  | .bool a, y => scalarsRelated r (.bool a) y
  | .num a, y => scalarsRelated r (.num a) y
  | .str a, y => scalarsRelated r (.str a) y
  | .obj fs, y => scalarsRelated r (.obj fs) y

/-- Whether the first items that are not alike are related in the given way, or, if there are none,
the lengths. -/
def itemsRelated (r : Relation) : List Json → List Json → Except (Json × Json) Bool
  | [], [] => .ok (r.holds .eq)
  | [], _ :: _ => .ok (r.holds .lt)
  | _ :: _, [] => .ok (r.holds .gt)
  | x :: xs, y :: ys => if alike x y then itemsRelated r xs ys else related r x y

end

example : (related .below (.arr [.null, .num (.int 1)]) (.arr [.null, .num (.int 2)])).toOption =
    some true := by decide +kernel
example : (related .above (.str "b") (.num (.int 1))).toOption = none := by decide +kernel

end SchemaDrift.Json
