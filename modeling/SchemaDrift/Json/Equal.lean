import SchemaDrift.Json

/-!
# Equality of JSON values

Arrays agree item by item and objects key by key, whatever the order of the keys; two notions of
equality differ only in what they do with scalars.

* `Json.equal` is equality of JSON values: numbers by exact value, and a boolean equals no number.
  `nan` differs from itself.
* `Json.alike` takes `true` and `false` for the numbers one and zero, and every value for like
  itself.
-/

namespace SchemaDrift.Json

/-- Whether every key of `fs` is a key of `gs`. -/
def keysWithin (fs gs : List (String × Json)) : Bool :=
  fs.all fun f => (gs.lookup f.1).isSome

mutual

/-- Whether two values have the same shape with scalars that agree. -/
def agree (scalars : Json → Json → Bool) : Json → Json → Bool
  | .arr xs, .arr ys => agreeItems scalars xs ys
  | .obj fs, .obj gs => keysWithin gs fs && agreeFields scalars fs gs
  | .arr _, _ => false
  | .obj _, _ => false
  | .null, y => scalars .null y
  | .bool a, y => scalars (.bool a) y
  | .num a, y => scalars (.num a) y
  | .str a, y => scalars (.str a) y

/-- Whether two lists have the same length and agree item by item. -/
def agreeItems (scalars : Json → Json → Bool) : List Json → List Json → Bool
  | [], [] => true
  | x :: xs, y :: ys => agree scalars x y && agreeItems scalars xs ys
  | _, _ => false

/-- Whether every field on the left has a partner of its name on the right that agrees. -/
def agreeFields (scalars : Json → Json → Bool) :
    List (String × Json) → List (String × Json) → Bool
  | [], _ => true
  | (key, x) :: rest, gs =>
    (match gs.lookup key with
      | some y => agree scalars x y
      | none => false) && agreeFields scalars rest gs

end

def scalarEqual : Json → Json → Bool
  | .null, .null => true
  | .bool a, .bool b => a == b
  | .num a, .num b => a.same b
  | .str a, .str b => a == b
  | _, _ => false

def equal (x y : Json) : Bool := agree scalarEqual x y

/-- The number that a boolean or a number stands for. -/
def asNumber? : Json → Option Number
  | .bool b => some (.int (if b then 1 else 0))
  | .num n => some n
  | _ => none

/-- Likeness of scalars: numbers and booleans by value, and `nan` like itself. -/
def scalarAlike (x y : Json) : Bool :=
  match x.asNumber?, y.asNumber? with
  | some a, some b => a.same b || (a == .double .nan && b == .double .nan)
  | none, none => scalarEqual x y
  | _, _ => false

def alike (x y : Json) : Bool := agree scalarAlike x y

example : equal (.obj [("a", .null), ("b", .bool true)]) (.obj [("b", .bool true), ("a", .null)])
    = true := by decide
example : equal (.bool true) (.num (.int 1)) = false ∧ alike (.bool true) (.num (.int 1)) = true :=
  by decide +kernel

end SchemaDrift.Json
