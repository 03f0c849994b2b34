/-!
# Ordered fields

Objects, property tables and tables of definitions are lists of named values whose order is kept.

* `Fields.put` sets a name: in place if it is there, at the end otherwise.
* `Fields.keys` are the names in order.
-/

namespace SchemaDrift.Fields

variable {α : Type}

/-- Sets the value of a name. A name that is already there keeps its position. -/
def put (name : String) (value : α) : List (String × α) → List (String × α)
  | [] => [(name, value)]
  | (n, v) :: rest => if n = name then (n, value) :: rest else (n, v) :: put name value rest

def putAll (fields : List (String × α)) (more : List (String × α)) : List (String × α) :=
  more.foldl (fun table field => put field.1 field.2 table) fields

def keys (fields : List (String × α)) : List String := fields.map (·.1)

example : put "a" 3 [("a", 1), ("b", 2)] = [("a", 3), ("b", 2)] := by decide
example : putAll [("a", 1)] [("b", 2), ("a", 3)] = [("a", 3), ("b", 2)] := by decide

theorem lookup_put_self (name : String) (value : α) (fields : List (String × α)) :
    (put name value fields).lookup name = some value := by
  induction fields with
  | nil => simp [put]
  | cons f rest ih =>
    obtain ⟨n, v⟩ := f
    unfold put
    split
    · next h => subst h; simp
    · next h =>
      have hn : (name == n) = false := by simpa using Ne.symm h
      simp [List.lookup_cons, hn, ih]

theorem lookup_put_of_ne {name other : String} (h : other ≠ name) (value : α)
    (fields : List (String × α)) :
    (put name value fields).lookup other = fields.lookup other := by
  have ho : (other == name) = false := by simpa using h
  induction fields with
  | nil => simp [put, List.lookup_cons, ho]
  | cons f rest ih =>
    obtain ⟨n, v⟩ := f
    unfold put
    split
    · next hn => subst hn; simp [List.lookup_cons, ho]
    · simp [List.lookup_cons, ih]

end SchemaDrift.Fields
