/-!
# Sessions

A session is a computation that emits items one after the other, changes a state, and may fail.
A failure stops it, but neither takes back what was emitted nor undoes what was done to the state.

* `Session.bind` runs one session and then another.
* `Session.each` runs a session for every item of a list, and `Session.collect` keeps the results.
* `Session.tally` runs a session, drops what it emits and returns how much that was.
-/

namespace SchemaDrift

/-- What a session leaves behind beside its state: the items emitted, in order, and how it
ended. -/
structure Outcome (ω ε α : Type) where
  emitted : List ω
  result : Except ε α

/-- A session with state `σ`, items `ω`, faults `ε` and results `α`. -/
def Session (σ ω ε α : Type) : Type := σ → Outcome ω ε α × σ

namespace Session

variable {σ ω ε α β : Type}

def done (x : α) : Session σ ω ε α := fun s => (⟨[], .ok x⟩, s)

def fail (e : ε) : Session σ ω ε α := fun s => (⟨[], .error e⟩, s)

def emit (item : ω) : Session σ ω ε Unit := fun s => (⟨[item], .ok ()⟩, s)

def update (f : σ → σ) : Session σ ω ε Unit := fun s => (⟨[], .ok ()⟩, f s)

/-- Runs a session and then the one that its result leads to, unless it fails. -/
def bind (m : Session σ ω ε α) (f : α → Session σ ω ε β) : Session σ ω ε β := fun s =>
  match m s with
  | (⟨items, .ok x⟩, s) =>
    let (rest, s) := f x s
    (⟨items ++ rest.emitted, rest.result⟩, s)
  | (⟨items, .error e⟩, s) => (⟨items, .error e⟩, s)

instance : Monad (Session σ ω ε) where
  pure := done
  bind := bind

def each (f : α → Session σ ω ε Unit) : List α → Session σ ω ε Unit
  | [] => done ()
  | x :: xs => bind (f x) fun _ => each f xs

/-- Runs a session for every item of a list, in order, and keeps the results. -/
def collect (f : α → Session σ ω ε β) : List α → Session σ ω ε (List β)
  | [] => done []
  | x :: xs => bind (f x) fun y => bind (collect f xs) fun ys => done (y :: ys)

/-- Runs a session, drops what it emits and returns how many items that were. What it does to the
state stays done. -/
def tally (m : Session σ ω ε Unit) : Session σ ω ε Nat := fun s =>
  match m s with
  | (⟨items, .ok _⟩, s) => (⟨[], .ok items.length⟩, s)
  | (⟨_, .error e⟩, s) => (⟨[], .error e⟩, s)

theorem bind_done (x : α) (f : α → Session σ ω ε β) : bind (done x) f = f x := by
  funext s
  simp [bind, done]

theorem bind_fail (e : ε) (f : α → Session σ ω ε β) : bind (fail e) f = fail e := by
  funext s
  simp [bind, fail]

theorem bind_assoc {γ : Type} (m : Session σ ω ε α) (f : α → Session σ ω ε β)
    (g : β → Session σ ω ε γ) : bind (bind m f) g = bind m fun x => bind (f x) g := by
  funext s
  unfold bind
  rcases m s with ⟨⟨items, x | x⟩, t⟩
  · rfl
  · dsimp only
    rcases f x t with ⟨⟨more, y | y⟩, u⟩ <;> simp

theorem each_singleton (f : α → Session σ ω ε Unit) (x : α) :
    each f [x] = f x := by
  funext s
  show bind (f x) (fun _ => done ()) s = f x s
  unfold bind done
  rcases f x s with ⟨⟨items, e | u⟩, t⟩
  · rfl
  · dsimp only
    rw [List.append_nil]

end Session

end SchemaDrift
