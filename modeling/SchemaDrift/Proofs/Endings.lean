import SchemaDrift.Memo
import SchemaDrift.Proofs.Outcome

/-!
# How sessions end

What is known of a session without running it: the states that it leaves behind, the faults that it
may end with, and the results that it may have.

* `Session.Ends` says all three.
* `Session.Ends.bind`, `Session.Ends.each`, `Session.Ends.collect` and `Session.Ends.tally` put such
  statements together.
* `Session.bind_congr`: what a session goes on with matters only for results that it may have.
* `Memo.fetch_error` says where a fault of a look-up comes from.
-/

namespace SchemaDrift

namespace Session

variable {σ ω ε α β : Type}

/-- Started in a state with the invariant `inv`, a session leaves such a state behind, its fault is
of the kind `fault` and its result of the kind `good`. -/
def Ends (inv : σ → Prop) (fault : ε → Prop) (good : α → Prop) (m : Session σ ω ε α) : Prop :=
  ∀ s, inv s → inv (m s).2 ∧ (∀ e, (m s).1.result = .error e → fault e) ∧
    ∀ x, (m s).1.result = .ok x → good x

namespace Ends

variable {inv : σ → Prop} {fault fault' : ε → Prop} {good good' : α → Prop}
  {m : Session σ ω ε α}

theorem done {x : α} (h : good x) : Ends inv fault good (Session.done (ω := ω) x) :=
  fun _ hs => ⟨hs, fun _ he => (by cases he), fun _ hx => (by cases hx; exact h)⟩

theorem fail {e : ε} (h : fault e) : Ends inv fault good (Session.fail (ω := ω) e) :=
  fun _ hs => ⟨hs, fun _ he => (by cases he; exact h), fun _ hx => (by cases hx)⟩

theorem emit (item : ω) : Ends inv fault (fun _ => True) (Session.emit item) :=
  fun _ hs => ⟨hs, fun _ he => (by cases he), fun _ _ => trivial⟩

theorem update {f : σ → σ} (h : ∀ s, inv s → inv (f s)) :
    Ends inv fault (fun _ => True) (Session.update (ω := ω) f) :=
  fun s hs => ⟨h s hs, fun _ he => (by cases he), fun _ _ => trivial⟩

theorem mono (hm : Ends inv fault good m) (faults : ∀ e, fault e → fault' e)
    (goods : ∀ x, good x → good' x) : Ends inv fault' good' m :=
  fun s hs => ⟨(hm s hs).1, fun e he => faults e ((hm s hs).2.1 e he),
    fun x hx => goods x ((hm s hs).2.2 x hx)⟩

theorem bind {f : α → Session σ ω ε β} {good' : β → Prop} (hm : Ends inv fault good m)
    (hf : ∀ x, good x → Ends inv fault good' (f x)) : Ends inv fault good' (Session.bind m f) := by
  intro s hs
  obtain ⟨kept, faults, goods⟩ := hm s hs
  rcases run : m s with ⟨⟨items, e | x⟩, t⟩
  · have stopped : Session.bind m f s = (⟨items, .error e⟩, t) := by simp [Session.bind, run]
    rw [run] at kept faults
    rw [stopped]
    exact ⟨kept, fun e' he => faults e' (by simpa using he), fun _ hy => (by cases hy)⟩
  · rw [run] at kept goods
    have later : (Session.bind m f s).1.result = (f x t).1.result ∧
        (Session.bind m f s).2 = (f x t).2 := by simp [Session.bind, run]
    rw [later.1, later.2]
    exact hf x (goods x rfl) t kept

theorem each {f : α → Session σ ω ε Unit} {xs : List α}
    (h : ∀ x ∈ xs, Ends inv fault (fun _ => True) (f x)) :
    Ends inv fault (fun _ => True) (Session.each f xs) := by
  induction xs with
  | nil => exact done trivial
  | cons x xs ih =>
    exact (h x List.mem_cons_self).bind fun _ _ => ih fun y hy => h y (List.mem_cons_of_mem x hy)

/-- Results are collected one for each item. -/
theorem collect {f : α → Session σ ω ε β} {found : α → β → Prop} {xs : List α}
    (h : ∀ x ∈ xs, Ends inv fault (found x) (f x)) :
    Ends inv fault (List.Forall₂ found xs) (Session.collect f xs) := by
  induction xs with
  | nil => exact done .nil
  | cons x xs ih =>
    refine (h x List.mem_cons_self).bind fun _ first => ?_
    refine (ih fun y hy => h y (List.mem_cons_of_mem x hy)).bind fun _ rest => ?_
    exact done (.cons first rest)

theorem tally {m : Session σ ω ε Unit} (hm : Ends inv fault (fun _ => True) m) :
    Ends inv fault (fun _ => True) (Session.tally m) := by
  intro s hs
  obtain ⟨kept, faults, -⟩ := hm s hs
  unfold Session.tally
  rcases run : m s with ⟨⟨items, e | x⟩, t⟩
  · rw [run] at kept faults
    exact ⟨kept, fun e' he => faults e' (by simpa using he), fun _ _ => trivial⟩
  · rw [run] at kept
    exact ⟨kept, fun _ he => (by cases he), fun _ _ => trivial⟩

end Ends

/-- What a session goes on with matters only for results that it may have. -/
theorem bind_congr {good : α → Prop} {m : Session σ ω ε α} {f g : α → Session σ ω ε β}
    (hm : Ends (fun _ => True) (fun _ => True) good m) (h : ∀ x, good x → f x = g x) :
    bind m f = bind m g := by
  funext s
  have goods := (hm s trivial).2.2
  unfold bind
  rcases run : m s with ⟨⟨items, e | x⟩, t⟩
  · rfl
  · rw [run] at goods
    dsimp only
    rw [h x (goods x rfl)]

end Session

namespace Memo

variable {κ ν τ ω ε : Type} [BEq κ]

/-- A look-up fails as the computation fails that it starts, or because there is no room at all for
what was computed. -/
theorem fetch_error {refusal : ε} {key : κ} {compute : Session (Memo κ ν × τ) ω ε ν}
    {m : Memo κ ν} {t : τ} {e : ε}
    (h : (fetch refusal key compute (m, t)).1.result = .error e) :
    e = refusal ∨ (compute ((m.lookUp key).2, t)).1.result = .error e := by
  unfold fetch at h
  rcases look : m.lookUp key with ⟨v | v, m'⟩
  · simp only [look, remember] at h
    rcases run : compute (m', t) with ⟨⟨items, e' | v⟩, m'', t'⟩
    · simp only [run] at h
      exact .inr (by simpa [run] using h)
    · simp only [run] at h
      split at h
      · cases h
      · exact .inl (Except.error.inj h).symm
  · simp only [look] at h
    cases h

end Memo

end SchemaDrift
