import SchemaDrift.Proofs.Flat
import SchemaDrift.Proofs.KindChanges

/-!
# Comparisons that align nothing

Where no pair has branches to align, nothing is priced, so the memo is never looked at. Such a
comparison takes its course exactly, in a failure as well as in a success.

* `Session.Yields` says that a session has one outcome whatever state it starts in, and
  `Session.Yields.bind` and its companions put such statements together.
* `Course.Branchless` is a set of pairs that a comparison does not leave and in which there is
  nothing to align.
* `Course.yields_within`, `Comparison.ofRoots_of_branchless` and `Comparison.changes_of_branchless`
  are the main statements.
* `Schema.Undivided` holds of a schema with one kind at most and without branches. It is not split
  up, and what the comparison makes of it is undivided again.
-/

namespace SchemaDrift

/-! ## Sessions with one outcome -/

namespace Session

variable {σ ω ε α β : Type}

/-- The session has this outcome, whatever state it is started in. -/
def Yields (m : Session σ ω ε α) (o : Outcome ω ε α) : Prop := ∀ s, (m s).1 = o

namespace Yields

theorem bind {m : Session σ ω ε α} {o : Outcome ω ε α} {f : α → Session σ ω ε β}
    {q : α → Outcome ω ε β} (hm : Yields m o) (hf : ∀ x, Yields (f x) (q x)) :
    Yields (bind m f) (o.andThen q) := by
  intro s
  have first := hm s
  unfold Session.bind
  rcases run : m s with ⟨⟨items, e | x⟩, t⟩
  · rw [run] at first
    rw [← first]
    rfl
  · rw [run] at first
    rw [← first, Outcome.andThen_ok rfl, ← hf x t]

/-- A session that does nothing but return a result hands it on. -/
theorem bind_done {m : Session σ ω ε α} {x : α} {f : α → Session σ ω ε β} {o : Outcome ω ε β}
    (hm : Yields m (.done x)) (hf : Yields (f x) o) : Yields (Session.bind m f) o := by
  intro s
  have outcome := hm s
  unfold Session.bind
  rcases run : m s with ⟨first, t⟩
  rw [run] at outcome
  obtain rfl : first = .done x := outcome
  exact hf t

theorem each {f : α → Session σ ω ε Unit} {p : α → Outcome ω ε Unit} {xs : List α}
    (h : ∀ x ∈ xs, Yields (f x) (p x)) : Yields (each f xs) (.each p xs) := by
  induction xs with
  | nil => exact fun _ => rfl
  | cons x xs ih =>
    exact (h x List.mem_cons_self).bind fun _ => ih fun y hy => h y (List.mem_cons_of_mem x hy)

end Yields

end Session

/-! ## Schemas with nothing to align -/

namespace Schema

/-- A schema that gives one kind at most and has no branches. -/
structure Undivided (s : Schema) : Prop where
  kinds : ∀ ks, s.kinds = some ks → ∃ k, ks = [k]
  anyOf : s.anyOf = none

namespace Undivided

variable {s : Schema}

/-- The effective type is one kind, every kind or none. -/
theorem typing_ne_listed (h : s.Undivided) (ks : List Kind) : s.typing ≠ .listed ks := by
  cases kinds : s.kinds with
  | some js =>
    obtain ⟨k, rfl⟩ := h.kinds js kinds
    rw [typing_of_kinds kinds]
    exact nofun
  | none =>
    rw [typing_of_no_kinds kinds]
    cases s.const with
    | some c => exact nofun
    | none =>
      show s.otherTyping ≠ _
      unfold otherTyping
      rw [h.anyOf]
      split
      · exact nofun
      · dsimp only
        split
        · split <;> exact nofun
        · exact nofun

theorem split?_eq_none (h : s.Undivided) : s.split? = none := by
  unfold split?
  split
  · next ks listed _ => exact absurd listed (h.typing_ne_listed ks)
  · rfl

theorem split_eq (h : s.Undivided) : s.split = s := split_eq_self h.split?_eq_none

theorem ofConst (x : Json) : (ofConst x).Undivided := by
  cases x <;> exact ⟨nofun, rfl⟩

theorem unfoldConst (h : s.Undivided) : s.unfoldConst.Undivided := by
  unfold Schema.unfoldConst
  split
  · exact ⟨h.kinds, h.anyOf⟩
  · exact h

end Undivided

end Schema

/-! ## Visits that align nothing -/

namespace Course

open Session

/-- Pairs that have nothing to align. Whatever a comparison goes on with below such a pair is one
of them. -/
structure Branchless (setting : Setting) (pairs : Schema → Schema → Prop) : Prop where
  anyOf : ∀ s t, pairs s t → (setting.old.follow s).schema.split.anyOf = none
  below : ∀ path s t step u w, pairs s t → .descend step u w ∈ tasksOf setting ⟨path, s, t, false⟩ →
    pairs u w

variable {setting : Setting} {pairs : Schema → Schema → Prop}

/-- The course of such a pair is its tasks, one after the other. -/
theorem Branchless.within_succ (h : Branchless setting pairs) (levels : Nat) (path : String)
    {s t : Schema} (hpair : pairs s t) :
    within setting (levels + 1) ⟨path, s, t, false⟩ =
      .each (Job.outcome (within setting levels))
        ((tasksOf setting ⟨path, s, t, false⟩).map (Job.ofTask path)) := by
  refine within_of_branchless levels ?_
  unfold branchesOf oldOf branches
  rw [h.anyOf s t hpair]

/-- A pair that is undivided after its references are followed is compared rule by rule. -/
theorem tasksOf_undivided {s t : Schema} (old : (setting.old.follow s).schema.Undivided)
    (new : (setting.new.follow t).schema.Undivided) (path : String) :
    tasksOf setting ⟨path, s, t, false⟩ =
      Comparing.tasks false false (setting.old.follow s).schema (setting.new.follow t).schema := by
  have whole : isSplit setting ⟨path, s, t, false⟩ = false := by
    unfold isSplit oldOf newOf
    rw [old.split?_eq_none, new.split?_eq_none]
    rfl
  unfold tasksOf oldOf newOf
  rw [whole, old.split_eq, new.split_eq]

/-- An undivided pair without references is compared rule by rule. -/
theorem tasksOf_own {s t : Schema} (hs : s.Undivided) (ht : t.Undivided) (old : s.reference = none)
    (new : t.reference = none) (path : String) :
    tasksOf setting ⟨path, s, t, false⟩ = Comparing.tasks false false s t := by
  have old := References.follow_of_no_reference setting.old old
  have new := References.follow_of_no_reference setting.new new
  rw [tasksOf_undivided (by rw [old]; exact hs) (by rw [new]; exact ht), old, new]

/-- A visit to a pair with nothing to align comes to what its tasks come to, whatever prices
are. -/
theorem yields_visit {descend : Visit → Comparing Unit} (price : Schema → Schema → Comparing Nat)
    {below : Visit → Outcome Change Fault Unit} {v : Visit}
    (anyOf : (oldOf setting v).split.anyOf = none)
    (known : ∀ step u w, .descend step u w ∈ tasksOf setting v →
      Yields (descend ⟨v.path ++ step.suffix, u, w, false⟩)
        (below ⟨v.path ++ step.suffix, u, w, false⟩)) :
    Yields (Comparing.visit setting descend price v)
      (.each (Job.outcome below) ((tasksOf setting v).map (Job.ofTask v.path))) := by
  have performed (task : Task) (htask : task ∈ tasksOf setting v) :
      Yields (Comparing.perform descend v.path task) ((Job.ofTask v.path task).outcome below) := by
    cases task with
    | report edit => exact fun _ => rfl
    | descend step u w => exact known step u w htask
  have aligned : Yields (Comparing.alignBranches setting descend price v.path (oldOf setting v).split
      (newOf setting v).split (newOf setting v).split?.isSome) (.done ()) := by
    unfold Comparing.alignBranches
    rw [anyOf]
    exact fun _ => rfl
  have body := aligned.bind_done (f := fun _ =>
    Session.each (Comparing.perform descend v.path) (tasksOf setting v)) (Yields.each performed)
  rw [Outcome.each_map]
  refine Yields.bind_done (Comparing.follow_done setting.old v.old) ?_
  refine Yields.bind_done (Comparing.follow_done setting.new v.new) ?_
  show Yields (if isSplit setting v = true then _ else _) _
  split
  · exact Yields.bind_done (Comparing.note_done _) body
  · exact body

/-- Where nothing is aligned, a comparison takes its course, whatever the memo holds. -/
theorem yields_within (h : Branchless setting pairs) (levels : Nat) (path : String) {s t : Schema}
    (hpair : pairs s t) :
    Yields (compareWithin setting levels ⟨path, s, t, false⟩)
      (within setting levels ⟨path, s, t, false⟩) := by
  induction levels generalizing path s t with
  | zero => exact fun _ => rfl
  | succ levels ih =>
    rw [h.within_succ levels path hpair]
    refine yields_visit _ (h.anyOf s t hpair) fun step u w hmem => ?_
    exact ih _ (h.below path s t step u w hpair hmem)

end Course

namespace Comparison

/-- A comparison of two roots below which nothing is aligned takes its course with the levels that
the limit allows. -/
theorem ofRoots_of_branchless {old new : Schema} {limit : DepthLimit}
    (memo : Memo (String × String) Nat) {pairs : Schema → Schema → Prop}
    (h : Course.Branchless (Setting.ofRoots old new limit.value) pairs) (hpair : pairs old new) :
    let course := Course.within (Setting.ofRoots old new limit.value) (limit.value + 1)
      (rootVisit old new)
    (ofRoots limit memo old new).reported = course.emitted ∧
      ∀ e, (ofRoots limit memo old new).fault = some e ↔ course.result = .error e := by
  obtain ⟨reported, failed⟩ := ofRoots_eq old new limit memo
  rw [levelsFrom_zero,
    rootVisit, Course.yields_within h (limit.value + 1) "" hpair] at reported failed
  exact ⟨reported, failed⟩

/-- Such a comparison comes to its end exactly if its course does, and with the same changes. -/
theorem changes_of_branchless {old new : Schema} {limit : DepthLimit}
    (memo : Memo (String × String) Nat) {pairs : Schema → Schema → Prop}
    (h : Course.Branchless (Setting.ofRoots old new limit.value) pairs) (hpair : pairs old new)
    {changes : List Change} :
    (ofRoots limit memo old new).changes = .ok changes ↔
      Course.within (Setting.ofRoots old new limit.value) (limit.value + 1) (rootVisit old new) =
        ⟨changes, .ok ()⟩ := by
  obtain ⟨reported, failed⟩ := ofRoots_of_branchless memo h hpair
  rw [changes_eq_ok_iff, reported]
  constructor
  · rintro ⟨completed, rfl⟩
    refine Outcome.ext rfl ?_
    rcases ended : (Course.within (Setting.ofRoots old new limit.value) (limit.value + 1)
      (rootVisit old new)).result with e | u
    · rw [(failed e).mpr ended] at completed
      exact nomatch completed
    · rfl
  · intro course
    rw [course] at failed ⊢
    refine ⟨Option.eq_none_iff_forall_ne_some.mpr fun e he => ?_, rfl⟩
    exact nomatch (failed e).mp he

end Comparison

end SchemaDrift
