import Mathlib
import SchemaDrift.Session

/-!
# Outcomes

An outcome is what a session leaves behind beside its state: what it emitted and how it ended. The
outcomes of sessions that do not look at their state can be put together without one, and two
outcomes can be compared.

* `Outcome.andThen`, `Outcome.each`, `Outcome.collect` and `Outcome.tally` put outcomes together as
  the operations on sessions of the same names do.
* `Outcome.Precedes` is the order of outcomes: the first stopped early at most. It emitted a prefix
  of what the second emitted, and if it came to its end, the two are the same.
* `Outcome.Precedes.andThen`, `Outcome.Precedes.each`, `Outcome.Precedes.collect` and
  `Outcome.Precedes.tally`: whatever is put together from preceding outcomes precedes.
* `Session.Tracks` compares a session with outcomes from both sides, and `Session.Tracks.bind` and
  its companions put such comparisons together.
-/

namespace SchemaDrift

variable {σ ω ε α β : Type}

theorem ok_of_toOption {x : Except ε α} {a : α} (h : x.toOption = some a) : x = .ok a := by
  cases x with
  | error e => exact nomatch h
  | ok b => exact congrArg _ (Option.some.inj h)

theorem exists_ok_of_isSome {x : Except ε α} (h : x.toOption.isSome = true) : ∃ a, x = .ok a := by
  cases x with
  | error e => exact nomatch h
  | ok b => exact ⟨b, rfl⟩

namespace Outcome

/-! ## Putting outcomes together -/

def done (x : α) : Outcome ω ε α := ⟨[], .ok x⟩

def fail (e : ε) : Outcome ω ε α := ⟨[], .error e⟩

def emit (item : ω) : Outcome ω ε Unit := ⟨[item], .ok ()⟩

/-- An outcome and then the one that its result leads to, unless it failed. -/
def andThen (o : Outcome ω ε α) (f : α → Outcome ω ε β) : Outcome ω ε β :=
  match o.result with
  | .ok x => ⟨o.emitted ++ (f x).emitted, (f x).result⟩
  | .error e => ⟨o.emitted, .error e⟩

def each (f : α → Outcome ω ε Unit) : List α → Outcome ω ε Unit
  | [] => done ()
  | x :: xs => (f x).andThen fun _ => each f xs

/-- The outcomes of all items of a list, in order, with their results. -/
def collect (f : α → Outcome ω ε β) : List α → Outcome ω ε (List β)
  | [] => done []
  | x :: xs => (f x).andThen fun y => (collect f xs).andThen fun ys => done (y :: ys)

/-- The outcome that emits nothing and whose result is how much was emitted. -/
def tally (o : Outcome ω ε Unit) : Outcome ω ε Nat :=
  match o.result with
  | .ok _ => done o.emitted.length
  | .error e => fail e

def Completes (o : Outcome ω ε α) : Prop := ∃ x, o.result = .ok x

theorem ext {o p : Outcome ω ε α} (items : o.emitted = p.emitted) (ends : o.result = p.result) :
    o = p := by
  cases o
  cases p
  simp_all

theorem andThen_ok {o : Outcome ω ε α} {x : α} (h : o.result = .ok x)
    (f : α → Outcome ω ε β) :
    o.andThen f = ⟨o.emitted ++ (f x).emitted, (f x).result⟩ := by
  simp [andThen, h]

theorem andThen_error {o : Outcome ω ε α} {e : ε} (h : o.result = .error e)
    (f : α → Outcome ω ε β) : o.andThen f = ⟨o.emitted, .error e⟩ := by
  simp [andThen, h]

@[simp] theorem done_andThen (x : α) (f : α → Outcome ω ε β) : (done x).andThen f = f x := by
  simp [andThen, done]

@[simp] theorem andThen_done (o : Outcome ω ε α) : o.andThen done = o := by
  obtain ⟨items, x | x⟩ := o <;> simp [andThen, done]

theorem andThen_assoc {γ : Type} (o : Outcome ω ε α) (f : α → Outcome ω ε β)
    (g : β → Outcome ω ε γ) :
    (o.andThen f).andThen g = o.andThen fun x => (f x).andThen g := by
  obtain ⟨items, e | x⟩ := o
  · rfl
  · rcases h : f x with ⟨more, e | y⟩ <;> simp [andThen, h]

theorem each_append (f : α → Outcome ω ε Unit) (xs ys : List α) :
    each f (xs ++ ys) = (each f xs).andThen fun _ => each f ys := by
  induction xs with
  | nil => simp [each]
  | cons x xs ih => simp only [List.cons_append, each, ih, andThen_assoc]

theorem each_map {γ : Type} (f : β → Outcome ω ε Unit) (g : γ → β) (xs : List γ) :
    each f (xs.map g) = each (fun x => f (g x)) xs := by
  induction xs with
  | nil => rfl
  | cons x xs ih => simp only [List.map_cons, each, ih]

theorem each_congr {f g : α → Outcome ω ε Unit} {xs : List α} (h : ∀ x ∈ xs, f x = g x) :
    each f xs = each g xs := by
  induction xs with
  | nil => rfl
  | cons x xs ih =>
    rw [each, each, h x List.mem_cons_self, ih fun y hy => h y (List.mem_cons_of_mem x hy)]

theorem collect_congr {f g : α → Outcome ω ε β} {xs : List α} (h : ∀ x ∈ xs, f x = g x) :
    collect f xs = collect g xs := by
  induction xs with
  | nil => rfl
  | cons x xs ih =>
    rw [collect, collect, h x List.mem_cons_self, ih fun y hy => h y (List.mem_cons_of_mem x hy)]

/-- An outcome that goes on has an end only if both of its parts have. -/
theorem andThen_eq_ok {o : Outcome ω ε α} {f : α → Outcome ω ε β} {y : β}
    (h : (o.andThen f).result = .ok y) : ∃ x, o.result = .ok x ∧ (f x).result = .ok y := by
  obtain ⟨items, e | x⟩ := o
  · simp [andThen] at h
  · exact ⟨x, rfl, by simpa [andThen] using h⟩

theorem tally_eq_ok {o : Outcome ω ε Unit} {n : Nat} (h : o.tally.result = .ok n) :
    o.Completes ∧ n = o.emitted.length := by
  obtain ⟨items, e | x⟩ := o
  · simp [tally, fail] at h
  · exact ⟨⟨x, rfl⟩, by simpa [tally, done] using h.symm⟩

theorem tally_of_ok {o : Outcome ω ε Unit} {x : Unit} (h : o.result = .ok x) :
    o.tally.result = .ok o.emitted.length := by
  simp [tally, done, h]

@[simp] theorem tally_emitted (o : Outcome ω ε Unit) : o.tally.emitted = [] := by
  obtain ⟨items, e | x⟩ := o <;> rfl

/-- Results are collected one for each item. -/
theorem collect_eq_ok {f : α → Outcome ω ε β} {xs : List α} {ys : List β}
    (h : (collect f xs).result = .ok ys) :
    List.Forall₂ (fun x y => (f x).result = .ok y) xs ys := by
  induction xs generalizing ys with
  | nil =>
    have : ys = [] := by simpa [collect, done] using h.symm
    rw [this]
    exact .nil
  | cons x xs ih =>
    obtain ⟨y, first, h⟩ := andThen_eq_ok h
    obtain ⟨rest, others, h⟩ := andThen_eq_ok h
    have : ys = y :: rest := by simpa [done] using h.symm
    rw [this]
    exact .cons first (ih others)

/-- Nothing is emitted if no part emits anything. -/
theorem andThen_silent {o : Outcome ω ε α} {f : α → Outcome ω ε β} (first : o.emitted = [])
    (second : ∀ x, o.result = .ok x → (f x).emitted = []) : (o.andThen f).emitted = [] := by
  obtain ⟨items, e | x⟩ := o
  · exact first
  · have last := second x rfl
    simp_all [andThen]

theorem each_silent {f : α → Outcome ω ε Unit} {xs : List α}
    (h : ∀ x ∈ xs, (f x).emitted = []) : (each f xs).emitted = [] := by
  induction xs with
  | nil => rfl
  | cons x xs ih =>
    refine andThen_silent (h x (by simp)) fun _ _ => ih fun y hy => h y ?_
    exact List.mem_cons_of_mem x hy

theorem collect_silent {f : α → Outcome ω ε β} {xs : List α}
    (h : ∀ x ∈ xs, (f x).emitted = []) : (collect f xs).emitted = [] := by
  induction xs with
  | nil => rfl
  | cons x xs ih =>
    refine andThen_silent (h x (by simp)) fun _ _ => andThen_silent (ih fun y hy => h y ?_)
      fun _ _ => rfl
    exact List.mem_cons_of_mem x hy

/-- If all parts come to their ends, each of them does, and what it emits is among all. -/
theorem each_eq_ok {f : α → Outcome ω ε Unit} {xs : List α} {u : Unit}
    (h : (each f xs).result = .ok u) {x : α} (hx : x ∈ xs) :
    (f x).result = .ok () ∧ ∀ item ∈ (f x).emitted, item ∈ (each f xs).emitted := by
  induction xs with
  | nil => simp at hx
  | cons y ys ih =>
    obtain ⟨v, first, rest⟩ := andThen_eq_ok h
    simp only [each, andThen_ok first, List.mem_append]
    rcases List.mem_cons.mp hx with rfl | hx
    · exact ⟨first, fun item hitem => .inl hitem⟩
    · obtain ⟨done, within⟩ := ih rest hx
      exact ⟨done, fun item hitem => .inr (within item hitem)⟩

/-- Every item that is emitted is one of a part, also if a later part fails. -/
theorem mem_each {f : α → Outcome ω ε Unit} {xs : List α} {item : ω}
    (h : item ∈ (each f xs).emitted) : ∃ x ∈ xs, item ∈ (f x).emitted := by
  induction xs with
  | nil => exact absurd h List.not_mem_nil
  | cons x xs ih =>
    have split : item ∈ (f x).emitted ∨ item ∈ (each f xs).emitted := by
      rw [each] at h
      rcases ended : (f x).result with e | u
      · rw [andThen_error ended] at h
        exact .inl h
      · rw [andThen_ok ended] at h
        exact List.mem_append.mp h
    rcases split with first | later
    · exact ⟨x, List.mem_cons_self, first⟩
    · obtain ⟨y, hy, emitted⟩ := ih later
      exact ⟨y, List.mem_cons_of_mem x hy, emitted⟩

/-- If all parts come to their ends, the items of the whole are of some sort exactly if those of
each part are. -/
theorem each_emitted_iff {P : ω → Prop} {f : α → Outcome ω ε Unit} {xs : List α} {u : Unit}
    (h : (each f xs).result = .ok u) :
    (∀ item ∈ (each f xs).emitted, P item) ↔ ∀ x ∈ xs, ∀ item ∈ (f x).emitted, P item := by
  refine ⟨fun all x hx item hitem => all item ((each_eq_ok h hx).2 item hitem), ?_⟩
  intro parts item hitem
  obtain ⟨x, hx, emitted⟩ := mem_each hitem
  exact parts x hx item emitted

/-- If all parts come to their ends, nothing is emitted exactly if no part emits anything. -/
theorem each_emitted_eq_nil_iff {f : α → Outcome ω ε Unit} {xs : List α} {u : Unit}
    (h : (each f xs).result = .ok u) : (each f xs).emitted = [] ↔ ∀ x ∈ xs, (f x).emitted = [] := by
  simp only [List.eq_nil_iff_forall_not_mem]
  exact each_emitted_iff h

/-- If all parts come to their ends, so does the whole, and every item is one of theirs. -/
theorem each_of_ok {P : ω → Prop} {f : α → Outcome ω ε Unit} {xs : List α}
    (h : ∀ x ∈ xs, (f x).result = .ok () ∧ ∀ item ∈ (f x).emitted, P item) :
    ∃ items, each f xs = ⟨items, .ok ()⟩ ∧ ∀ item ∈ items, P item := by
  induction xs with
  | nil => exact ⟨[], rfl, nofun⟩
  | cons x xs ih =>
    obtain ⟨first, good⟩ := h x List.mem_cons_self
    obtain ⟨items, rest, others⟩ := ih fun y hy => h y (List.mem_cons_of_mem x hy)
    refine ⟨(f x).emitted ++ items, ?_, fun item hitem => ?_⟩
    · rw [each, andThen_ok first, rest]
    · rcases List.mem_append.mp hitem with hitem | hitem
      · exact good item hitem
      · exact others item hitem

/-- If all results can be had, they can be collected. -/
theorem collect_of_ok {f : α → Outcome ω ε β} {xs : List α} (h : ∀ x ∈ xs, (f x).Completes) :
    (collect f xs).Completes := by
  induction xs with
  | nil => exact ⟨[], rfl⟩
  | cons x xs ih =>
    obtain ⟨y, first⟩ := h x List.mem_cons_self
    obtain ⟨ys, rest⟩ := ih fun z hz => h z (List.mem_cons_of_mem x hz)
    refine ⟨y :: ys, ?_⟩
    rw [collect, andThen_ok first, andThen_ok rest]
    rfl

/-! ## The order of outcomes -/

/-- The first outcome is as the second, except that it may have stopped early. -/
def Precedes (o p : Outcome ω ε α) : Prop :=
  o.emitted <+: p.emitted ∧ ∀ x, o.result = .ok x → p = o

namespace Precedes

theorem refl (o : Outcome ω ε α) : o.Precedes o := ⟨List.prefix_refl _, fun _ _ => rfl⟩

theorem trans {o p q : Outcome ω ε α} (h : o.Precedes p) (k : p.Precedes q) : o.Precedes q := by
  refine ⟨h.1.trans k.1, fun x hx => ?_⟩
  have hp := h.2 x hx
  subst hp
  exact k.2 x hx

/-- A failure at once precedes everything. -/
theorem fail (e : ε) (o : Outcome ω ε α) : (Outcome.fail e).Precedes o :=
  ⟨List.nil_prefix, fun _ h => nomatch h⟩

theorem completes {o p : Outcome ω ε α} (h : o.Precedes p) (ho : o.Completes) :
    p.Completes := by
  obtain ⟨x, hx⟩ := ho
  exact ⟨x, h.2 x hx ▸ hx⟩

theorem andThen {o p : Outcome ω ε α} {f g : α → Outcome ω ε β} (h : o.Precedes p)
    (hfg : ∀ x, o.result = .ok x → (f x).Precedes (g x)) :
    (o.andThen f).Precedes (p.andThen g) := by
  rcases ho : o.result with e | x
  · rw [andThen_error ho]
    refine ⟨?_, fun _ h => nomatch h⟩
    rcases hp : p.result with e' | y
    · rw [andThen_error hp]
      exact h.1
    · rw [andThen_ok hp]
      exact h.1.trans (List.prefix_append _ _)
  · have hp := h.2 x ho
    subst hp
    rw [andThen_ok ho, andThen_ok ho]
    refine ⟨(List.prefix_append_right_inj _).mpr (hfg x ho).1, fun y hy => ?_⟩
    rw [(hfg x ho).2 y hy]

theorem each {f g : α → Outcome ω ε Unit} {xs : List α}
    (h : ∀ x ∈ xs, (f x).Precedes (g x)) : (each f xs).Precedes (each g xs) := by
  induction xs with
  | nil => exact refl _
  | cons x xs ih =>
    refine (h x (by simp)).andThen fun _ _ => ih fun y hy => h y ?_
    exact List.mem_cons_of_mem x hy

theorem collect {f g : α → Outcome ω ε β} {xs : List α}
    (h : ∀ x ∈ xs, (f x).Precedes (g x)) : (collect f xs).Precedes (collect g xs) := by
  induction xs with
  | nil => exact refl _
  | cons x xs ih =>
    refine (h x (by simp)).andThen fun _ _ => (ih fun y hy => h y ?_).andThen fun _ _ => refl _
    exact List.mem_cons_of_mem x hy

theorem tally {o p : Outcome ω ε Unit} (h : o.Precedes p) : o.tally.Precedes p.tally := by
  rcases ho : o.result with e | x
  · have : o.tally = Outcome.fail e := by simp [Outcome.tally, ho]
    rw [this]
    exact fail e _
  · rw [h.2 x ho]
    exact refl _

end Precedes

end Outcome

/-! ## Sessions between outcomes -/

namespace Session

/-- A session that tracks a family of outcomes: started in a state with the invariant `inv` it
leaves such a state behind, its faults are of the kind `fault`, and its outcome lies between the
outcome at `base` and all of the later ones. -/
def Tracks (inv : σ → Prop) (fault : ε → Prop) (base : Nat) (m : Session σ ω ε α)
    (p : Nat → Outcome ω ε α) : Prop :=
  ∀ s, inv s →
    inv (m s).2 ∧ (∀ e, (m s).1.result = .error e → fault e) ∧ (p base).Precedes (m s).1 ∧
      ∃ enough, ∀ n, enough ≤ n → (m s).1.Precedes (p n)

namespace Tracks

variable {inv : σ → Prop} {fault : ε → Prop} {base : Nat}

theorem done (x : α) : Tracks inv fault base (done (ω := ω) x) fun _ => Outcome.done x :=
  fun _ hs => ⟨hs, fun _ h => (nomatch h), .refl _, 0, fun _ _ => .refl _⟩

theorem fail {e : ε} (he : fault e) :
    Tracks inv fault base (fail (ω := ω) (α := α) e) fun _ => Outcome.fail e :=
  fun _ hs => ⟨hs, fun _ h => by cases h; exact he, .refl _, 0, fun _ _ => .refl _⟩

theorem emit (item : ω) : Tracks inv fault base (emit item) fun _ => Outcome.emit item :=
  fun _ hs => ⟨hs, fun _ h => (nomatch h), .refl _, 0, fun _ _ => .refl _⟩

theorem update {f : σ → σ} (hf : ∀ s, inv s → inv (f s)) :
    Tracks (ω := ω) inv fault base (update f) fun _ => Outcome.done () :=
  fun s hs => ⟨hf s hs, fun _ h => (nomatch h), .refl _, 0, fun _ _ => .refl _⟩

theorem bind {m : Session σ ω ε α} {p : Nat → Outcome ω ε α} {f : α → Session σ ω ε β}
    {q : α → Nat → Outcome ω ε β} (hm : Tracks inv fault base m p)
    (hf : ∀ x, Tracks inv fault base (f x) (q x)) :
    Tracks inv fault base (bind m f) fun n => (p n).andThen fun x => q x n := by
  intro s hs
  obtain ⟨kept, faults, above, enough, below⟩ := hm s hs
  rcases hms : m s with ⟨⟨items, e | x⟩, t⟩
  · -- After a fault nothing else is done, whatever the outcomes at other levels go on with.
    have run : Session.bind m f s = (⟨items, .error e⟩, t) := by simp [Session.bind, hms]
    rw [hms] at kept faults above below
    have stop (g : α → Outcome ω ε β) :
        (⟨items, .error e⟩ : Outcome ω ε β) =
          (⟨items, .error e⟩ : Outcome ω ε α).andThen g := rfl
    rw [run]
    refine ⟨kept, fun e' he => faults e' (by simpa using he), ?_, enough, fun n hn => ?_⟩
    · rw [stop fun x => q x base]
      exact above.andThen fun _ _ => .refl _
    · rw [stop fun x => q x n]
      exact (below n hn).andThen fun _ _ => .refl _
  · obtain ⟨kept', faults', above', enough', below'⟩ := hf x t (by rw [hms] at kept; exact kept)
    have run : Session.bind m f s =
        ((⟨items, .ok x⟩ : Outcome ω ε α).andThen fun _ => (f x t).1, (f x t).2) := by
      simp [Session.bind, hms, Outcome.andThen]
    rw [hms] at above below
    rw [run]
    refine ⟨kept', faults', above.andThen fun y hy => ?_, max enough enough', fun n hn => ?_⟩
    · have started := above.2 y hy
      have : x = y := by simpa [← started] using hy
      subst this
      exact above'
    · refine (below n (by omega)).andThen fun y hy => ?_
      have : x = y := by simpa using hy
      subst this
      exact below' n (by omega)

/-- A session that does nothing but return a result hands it on. -/
theorem bind_done {m : Session σ ω ε α} {x : α} {f : α → Session σ ω ε β}
    {q : Nat → Outcome ω ε β} (hm : Tracks inv fault base m fun _ => Outcome.done x)
    (hf : Tracks inv fault base (f x) q) : Tracks inv fault base (Session.bind m f) q := by
  intro s hs
  obtain ⟨kept, -, above, -⟩ := hm s hs
  have outcome : (m s).1 = ⟨[], .ok x⟩ := above.2 x rfl
  have run : Session.bind m f s = f x (m s).2 := by
    rcases hms : m s with ⟨o, t⟩
    rw [hms] at outcome
    subst outcome
    simp [Session.bind, hms]
  rw [run]
  exact hf (m s).2 kept

theorem each {f : α → Session σ ω ε Unit} {p : α → Nat → Outcome ω ε Unit} {l : List α}
    (h : ∀ x ∈ l, Tracks inv fault base (f x) (p x)) :
    Tracks inv fault base (each f l) fun n => Outcome.each (fun x => p x n) l := by
  induction l with
  | nil => exact done ()
  | cons x l ih =>
    refine (h x (by simp)).bind fun _ => ih fun y hy => h y ?_
    exact List.mem_cons_of_mem x hy

theorem collect {f : α → Session σ ω ε β} {p : α → Nat → Outcome ω ε β} {xs : List α}
    (h : ∀ x ∈ xs, Tracks inv fault base (f x) (p x)) :
    Tracks inv fault base (collect f xs) fun n => Outcome.collect (fun x => p x n) xs := by
  induction xs with
  | nil => exact done []
  | cons x xs ih =>
    refine (h x (by simp)).bind fun _ => (ih fun y hy => h y ?_).bind fun _ => done _
    exact List.mem_cons_of_mem x hy

theorem tally {m : Session σ ω ε Unit} {p : Nat → Outcome ω ε Unit}
    (hm : Tracks inv fault base m p) :
    Tracks inv fault base (tally m) fun n => (p n).tally := by
  intro s hs
  obtain ⟨kept, faults, above, enough, below⟩ := hm s hs
  have run : Session.tally m s = ((m s).1.tally, (m s).2) := by
    rcases hms : m s with ⟨⟨items, e | x⟩, t⟩ <;>
      simp [Session.tally, hms, Outcome.tally, Outcome.done, Outcome.fail]
  rw [run]
  refine ⟨kept, fun e he => ?_, above.tally, enough, fun n hn => (below n hn).tally⟩
  rcases hr : (m s).1.result with e' | x
  · have : e = e' := by simpa [Outcome.tally, hr, Outcome.fail] using he.symm
    subst this
    exact faults e hr
  · simp [Outcome.tally, hr, Outcome.done] at he

/-- Tracking from one level on is tracking from a level whose outcome precedes the one there. -/
theorem lower {m : Session σ ω ε α} {p : Nat → Outcome ω ε α} {base' : Nat}
    (hm : Tracks inv fault base m p) (h : (p base').Precedes (p base)) :
    Tracks inv fault base' m p := by
  intro s hs
  obtain ⟨kept, faults, above, below⟩ := hm s hs
  exact ⟨kept, faults, h.trans above, below⟩

/-- Tracking from one level on is tracking from the next one, if the family starts one level
later and is a failure at first. -/
theorem shift {m : Session σ ω ε α} {p : Nat → Outcome ω ε α}
    (hm : Tracks inv fault base m fun n => p (n + 1)) : Tracks inv fault (base + 1) m p := by
  intro s hs
  obtain ⟨kept, faults, above, enough, below⟩ := hm s hs
  refine ⟨kept, faults, above, enough + 1, fun n hn => ?_⟩
  obtain ⟨k, rfl⟩ : ∃ k, n = k + 1 := ⟨n - 1, by omega⟩
  exact below k (by omega)

end Tracks

end Session

end SchemaDrift
