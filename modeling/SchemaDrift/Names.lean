/-!
# Sorted sets of names

A set of names is a list without repetitions, ascending by code point, so two sets with the same
members are the same list.

* `Names.ofList` sorts names and drops repetitions.
* `Names.without` and `Names.common` are the difference and the intersection, in order.
-/

namespace SchemaDrift.Names

/-- Adds a name to a sorted set. -/
def insert (name : String) : List String → List String
  | [] => [name]
  | n :: ns =>
    if name < n then name :: n :: ns
    else if name = n then n :: ns
    else n :: insert name ns

def ofList : List String → List String
  | [] => []
  | n :: ns => insert n (ofList ns)

/-- The members of the first set that are not in the second. -/
def without (xs ys : List String) : List String := xs.filter fun x => !ys.contains x

/-- The members of the first set that are in the second as well. -/
def common (xs ys : List String) : List String := xs.filter fun x => ys.contains x

example : ofList ["b", "a", "b"] = ["a", "b"] := by decide
example : without ["a", "b"] ["b"] = ["a"] ∧ common ["a", "b"] ["b"] = ["b"] := by decide

theorem mem_insert {x name : String} {ns : List String} :
    x ∈ insert name ns ↔ x = name ∨ x ∈ ns := by
  induction ns with
  | nil => simp [insert]
  | cons n ns ih =>
    unfold insert
    split
    · simp
    · split
      · next h => subst h; simp
      · simp [ih]; constructor <;> (intro h; rcases h with h | h | h <;> simp [h])

theorem mem_ofList {x : String} {ns : List String} : x ∈ ofList ns ↔ x ∈ ns := by
  induction ns with
  | nil => simp [ofList]
  | cons n ns ih => simp [ofList, mem_insert, ih]

end SchemaDrift.Names
