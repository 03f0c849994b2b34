import SchemaDrift.Fault
import SchemaDrift.Session

/-!
# A memo of bounded size

A memo remembers values by key, the most recently used entry first. It never holds more entries
than its capacity: a new entry drives out the least recently used one.

* `Memo.lookUp` looks a key up; a find makes the entry the most recent one.
* `Memo.store` enters a value, unless the memo has no capacity at all.
* `Memo.fetch` returns the value of a key, computing and storing it if it is not held. The
  computation may use the memo itself; if it fails, nothing is stored.
* `Memo.fetchFilled` does so where a computation may come to no value; it leaves a blank entry,
  which takes its place in the memo and is computed again.
-/

namespace SchemaDrift

/-- A memo: its capacity, its entries from the most to the least recently used, and how often a
key was found and was not found. -/
structure Memo (κ ν : Type) where
  capacity : Nat
  entries : List (κ × ν)
  hits : Nat
  misses : Nat
  deriving Repr

namespace Memo

variable {κ ν τ ω ε : Type} [BEq κ]

def empty (capacity : Nat) : Memo κ ν := ⟨capacity, [], 0, 0⟩

/-- An empty memo of the given capacity, which may not be negative. -/
def ofCapacity (capacity : Int) : Except Fault (Memo κ ν) :=
  match capacity with
  | .ofNat n => .ok (empty n)
  | .negSucc _ => .error .negativeCapacity

def size (m : Memo κ ν) : Nat := m.entries.length

/-- The entries without the one of a key. -/
def dropKey (key : κ) : List (κ × ν) → List (κ × ν)
  | [] => []
  | (k, v) :: rest => if k == key then dropKey key rest else (k, v) :: dropKey key rest

/-- Looks a key up and counts whether it was found. A find makes the entry the most recent. -/
def lookUp (m : Memo κ ν) (key : κ) : Option ν × Memo κ ν :=
  match m.entries.lookup key with
  | some v =>
    (some v, { m with entries := (key, v) :: dropKey key m.entries, hits := m.hits + 1 })
  | none => (none, { m with misses := m.misses + 1 })

/-- Enters a value as the most recent one; what no longer fits is dropped from the other end. -/
def store (m : Memo κ ν) (key : κ) (value : ν) : Option (Memo κ ν) :=
  if m.capacity = 0 then none
  else
    some { m with entries := ((key, value) :: dropKey key m.entries).take m.capacity }

/-- Computes a value and stores it; if the computation fails, nothing is stored. The memo is one
half of the state of the session, and `refusal` is the fault of storing without capacity. -/
def remember (refusal : ε) (key : κ) (compute : Session (Memo κ ν × τ) ω ε ν) :
    Session (Memo κ ν × τ) ω ε ν := fun s =>
  match compute s with
  | (⟨items, .ok v⟩, (m, t)) =>
    match m.store key v with
    | some m => (⟨items, .ok v⟩, (m, t))
    | none => (⟨items, .error refusal⟩, (m, t))
  | (⟨items, .error e⟩, s) => (⟨items, .error e⟩, s)

/-- The value of a key, computed and stored if it is not held. -/
def fetch (refusal : ε) (key : κ) (compute : Session (Memo κ ν × τ) ω ε ν) :
    Session (Memo κ ν × τ) ω ε ν := fun (m, t) =>
  match m.lookUp key with
  | (some v, m) => (⟨[], .ok v⟩, (m, t))
  | (none, m) => remember refusal key compute (m, t)

/-- Looks a key up in a memo with blank entries. A blank entry becomes the most recent one as any
other, but it is no find. -/
def lookUpFilled (m : Memo κ (Option ν)) (key : κ) : Option ν × Memo κ (Option ν) :=
  match m.lookUp key with
  | (some none, found) => (none, { found with hits := m.hits, misses := m.misses + 1 })
  | (some (some v), found) => (some v, found)
  | (none, m) => (none, m)

/-- The value of a key in a memo with blank entries, computed and stored if it is not held or the
entry is blank. A computation without a value leaves a blank entry. -/
def fetchFilled (refusal : ε) (key : κ)
    (compute : Session (Memo κ (Option ν) × τ) ω ε (Option ν)) :
    Session (Memo κ (Option ν) × τ) ω ε (Option ν) := fun (m, t) =>
  match m.lookUpFilled key with
  | (some v, m) => (⟨[], .ok (some v)⟩, (m, t))
  | (none, m) => remember refusal key compute (m, t)

example :
    ((empty 2 : Memo Nat Nat).store 1 10).bind (fun m => (m.store 2 20).bind fun m =>
      ((m.lookUp 1).2.store 3 30).map fun m => m.entries) = some [(3, 30), (1, 10)] := by decide

end Memo

end SchemaDrift
