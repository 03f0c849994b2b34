import SchemaDrift.Proofs.Relevance
import SchemaDrift.Proofs.Schema.Splitting
import SchemaDrift.Proofs.Transparency

/-!
# Changes of kinds

The changes of kinds that stand at the path of a pair are those of the pair itself: the kinds that
are lost and then the kinds that are gained, each once. This is so whatever the memo holds and
whichever branches are aligned. All other pairs that are visited on the way stand at longer paths,
except for the branches that come from splitting up a list of kinds on the right; their kinds are
not compared.

* `Session.Shows` says what a session emits of one sort of items whenever it comes to its end, and
  `Session.Shows.bind` and its companions put such statements together.
* `Comparing.shows_elsewhere`: comparing a pair reports nothing outside the path of the pair.
* `Comparing.kindChanges_exact` is the main statement.
-/

namespace SchemaDrift

/-! ## What sessions show -/

namespace Session

variable {σ τ ω ε α β κ : Type} {sort : ω → Bool}

/-- Whenever the session comes to its end, whatever state it started in, these are the items of a
sort that it emitted. -/
def Shows (sort : ω → Bool) (m : Session σ ω ε α) (items : List ω) : Prop :=
  ∀ s x, (m s).1.result = .ok x → (m s).1.emitted.filter sort = items

namespace Shows

theorem done (x : α) : Shows sort (done (σ := σ) (ε := ε) x) [] := fun _ _ _ => rfl

theorem fail (e : ε) (items : List ω) : Shows sort (fail (σ := σ) (α := α) e) items := by
  intro s x ended
  cases ended

theorem emit (item : ω) : Shows sort (emit (σ := σ) (ε := ε) item) ([item].filter sort) :=
  fun _ _ _ => rfl

theorem tally (m : Session σ ω ε Unit) : Shows sort (tally m) [] := by
  intro s n ended
  unfold Session.tally at ended ⊢
  rcases run : m s with ⟨⟨items, e | x⟩, t⟩
  · rw [run] at ended
    cases ended
  · rfl

theorem bind {m : Session σ ω ε α} {f : α → Session σ ω ε β} {items more : List ω}
    (hm : Shows sort m items) (hf : ∀ x, Shows sort (f x) more) :
    Shows sort (bind m f) (items ++ more) := by
  intro s y ended
  have first := hm s
  unfold Session.bind at ended ⊢
  rcases run : m s with ⟨⟨start, e | x⟩, t⟩
  · rw [run] at ended
    exact nomatch ended
  · rw [run] at ended first
    show (start ++ (f x t).1.emitted).filter sort = items ++ more
    rw [List.filter_append, hf x t y ended]
    exact congrArg (· ++ more) (first x rfl)

/-- A session that emits nothing and always has the same result hands it on. -/
theorem bind_done {m : Session σ ω ε α} {x : α} {f : α → Session σ ω ε β} {items : List ω}
    (hm : ∀ s, (m s).1 = .done x) (hf : Shows sort (f x) items) :
    Shows sort (Session.bind m f) items := by
  intro s y ended
  have outcome := hm s
  unfold Session.bind at ended ⊢
  rcases run : m s with ⟨o, t⟩
  rw [run] at ended outcome
  obtain rfl : o = .done x := outcome
  exact hf t y ended

theorem each {f : α → Session σ ω ε Unit} {shown : α → List ω} {xs : List α}
    (h : ∀ x ∈ xs, Shows sort (f x) (shown x)) :
    Shows sort (each f xs) (xs.flatMap shown) := by
  induction xs with
  | nil => exact done ()
  | cons x xs ih =>
    rw [List.flatMap_cons]
    exact (h x List.mem_cons_self).bind fun _ => ih fun y hy => h y (List.mem_cons_of_mem x hy)

theorem collect {f : α → Session σ ω ε β} {xs : List α} (h : ∀ x ∈ xs, Shows sort (f x) []) :
    Shows sort (collect f xs) [] := by
  induction xs with
  | nil => exact done []
  | cons x xs ih =>
    exact (h x List.mem_cons_self).bind fun _ =>
      (ih fun y hy => h y (List.mem_cons_of_mem x hy)).bind fun _ => done _

/-- Whether a value is found or computed, nothing is shown if its computation shows nothing. -/
theorem fetch [BEq κ] {refusal : ε} {key : κ} {compute : Session (Memo κ α × τ) ω ε α}
    (h : Shows sort compute []) : Shows sort (Memo.fetch refusal key compute) [] := by
  rintro ⟨m, t⟩ x ended
  rcases look : m.lookUp key with ⟨v | v, m'⟩
  · have miss : Memo.fetch refusal key compute (m, t) =
        Memo.remember refusal key compute (m', t) := by
      simp [Memo.fetch, look]
    rw [miss] at ended ⊢
    have computed := h (m', t)
    unfold Memo.remember at ended ⊢
    rcases run : compute (m', t) with ⟨⟨items, e | v⟩, m'', t'⟩
    · rw [run] at ended
      cases ended
    · rw [run] at computed
      have quiet : items.filter sort = [] := computed v rfl
      dsimp only
      split <;> exact quiet
  · have hit : Memo.fetch refusal key compute (m, t) = (⟨[], .ok v⟩, (m', t)) := by
      simp [Memo.fetch, look]
    rw [hit]
    rfl

end Shows

end Session

/-! ## Tasks without changes of kinds -/

def Edit.isOfKinds : Edit → Bool
  | .typeAdd _ => true
  | .typeRemove _ => true
  | _ => false

/-- Whether a change is one of kinds at a path. -/
def Change.isOfKindsAt (path : String) (c : Change) : Bool :=
  decide (c.path = path) && c.edit.isOfKinds

namespace Step

/-- Every step makes a path longer, except the one to a branch that the comparison has made. -/
theorem suffix_ne {step : Step} (h : step ≠ .splitBranch) : step.suffix ≠ "" := by
  cases step with
  | splitBranch => exact absurd rfl h
  | items => decide
  | additional => decide
  | property name => simp [suffix]
  | position index => simp [suffix]
  | branch index => simp [suffix]

end Step

namespace Task

/-- A task that has nothing to do with the kinds of its pair: it reports another edit, or it goes
on with a pair that stands at a longer path. -/
def Aside : Task → Prop
  | .report edit => edit.isOfKinds = false
  | .descend step _ _ => step ≠ .splitBranch

theorem aside_of_valueEdits {α : Type} {agrees : α → α → Bool} {added removed : α → Edit}
    {changed : α → α → Edit} (ha : ∀ y, (added y).isOfKinds = false)
    (hr : ∀ x, (removed x).isOfKinds = false) (hc : ∀ x y, (changed x y).isOfKinds = false)
    {x y : Option α} {e : Edit} (h : e ∈ valueEdits agrees added removed changed x y) :
    (report e).Aside := by
  unfold valueEdits at h
  split at h
  · exact nomatch h
  · rw [List.mem_singleton.mp h]
    exact ha _
  · rw [List.mem_singleton.mp h]
    exact hr _
  · split at h
    · exact nomatch h
    · rw [List.mem_singleton.mp h]
      exact hc _ _

variable {s t : Schema}

theorem aside_of_constEdits {e : Edit} (h : e ∈ constEdits s t) : (report e).Aside := by
  unfold constEdits at h
  split at h
  · exact nomatch h
  · rw [List.mem_singleton.mp h]
    rfl
  · rw [List.mem_singleton.mp h]
    rfl
  · split at h
    · exact nomatch h
    · rcases List.mem_cons.mp h with rfl | h
      · rfl
      · rw [List.mem_singleton.mp h]
        rfl

theorem aside_of_rangeEdits {e : Edit} (h : e ∈ rangeEdits s t) : (report e).Aside := by
  unfold rangeEdits at h
  obtain ⟨b, -, h⟩ := List.mem_flatMap.mp h
  exact aside_of_valueEdits (fun _ => rfl) (fun _ => rfl) (fun _ _ => rfl) h

theorem aside_of_requiredEdits {e : Edit} (h : e ∈ requiredEdits s t) : (report e).Aside := by
  unfold requiredEdits at h
  rcases List.mem_append.mp h with h | h
  all_goals
    obtain ⟨name, -, rfl⟩ := List.mem_map.mp h
    rfl

theorem aside_of_textEdits {e : Edit} (h : e ∈ textEdits s t) : (report e).Aside := by
  unfold textEdits at h
  rcases List.mem_append.mp h with h | h
  · rcases List.mem_append.mp h with h | h
    · rcases List.mem_append.mp h with h | h
      · exact aside_of_valueEdits (fun _ => rfl) (fun _ => rfl) (fun _ _ => rfl) h
      · exact aside_of_valueEdits (fun _ => rfl) (fun _ => rfl) (fun _ _ => rfl) h
    · exact aside_of_valueEdits (fun _ => rfl) (fun _ => rfl) (fun _ _ => rfl) h
  · exact aside_of_valueEdits (fun _ => rfl) (fun _ => rfl) (fun _ _ => rfl) h

theorem aside_of_propertyTasks {task : Task} (h : task ∈ propertyTasks s t) : task.Aside := by
  unfold propertyTasks at h
  rcases List.mem_append.mp h with h | h
  · rcases List.mem_append.mp h with h | h
    all_goals
      obtain ⟨name, -, rfl⟩ := List.mem_map.mp h
      rfl
  · obtain ⟨name, -, found⟩ := List.mem_filterMap.mp h
    split at found
    · rw [← Option.some.inj found]
      exact nofun
    · exact nomatch found

theorem aside_of_additionalTasks {task : Task} (h : task ∈ additionalTasks s t) :
    task.Aside := by
  unfold additionalTasks at h
  split at h
  · split at h
    · exact nomatch h
    · rw [List.mem_singleton.mp h]
      exact nofun
  · exact nomatch h

theorem aside_of_positionTasks {pairs : List (Schema × Schema)} {index : Nat} {task : Task}
    (h : task ∈ positionTasks index pairs) : task.Aside := by
  induction pairs generalizing index with
  | nil => cases h
  | cons p rest ih =>
    rw [positionTasks] at h
    rcases List.mem_cons.mp h with rfl | h
    · rintro ⟨⟩
    · exact ih h

theorem aside_of_itemTasks {task : Task} (h : task ∈ itemTasks s t) : task.Aside := by
  unfold itemTasks at h
  split at h
  · rw [List.mem_singleton.mp h]
    exact nofun
  · rcases List.mem_cons.mp h with rfl | h
    · rfl
    · exact aside_of_positionTasks h
  · rcases List.mem_cons.mp h with rfl | h
    · rfl
    · exact aside_of_positionTasks h
  · rcases List.mem_append.mp h with h | h
    · split at h
      · exact nomatch h
      · rw [List.mem_singleton.mp h]
        rfl
    · exact aside_of_positionTasks h
  · exact nomatch h

theorem aside_of_facetTasks {task : Task} (h : task ∈ facetTasks s t) : task.Aside := by
  have reported {es : List Edit} (aside : ∀ e ∈ es, (report e).Aside) (h : task ∈ es.map report) :
      task.Aside := by
    obtain ⟨e, he, rfl⟩ := List.mem_map.mp h
    exact aside e he
  unfold facetTasks at h
  simp only [List.mem_append] at h
  rcases h with ((((h | h) | h) | h) | h) | h
  · exact aside_of_propertyTasks h
  · exact reported (fun _ => aside_of_rangeEdits) h
  · exact aside_of_additionalTasks h
  · exact aside_of_itemTasks h
  · exact reported (fun _ => aside_of_requiredEdits) h
  · exact reported (fun _ => aside_of_textEdits) h

end Task

namespace Comparing

/-! ## What visits show -/

/-- The tasks of a pair beside those of its kinds. -/
theorem tasks_eq (aligned split : Bool) (s t : Schema) :
    ∃ others, tasks aligned split s t =
      (if aligned then [] else (Task.typeEdits s t).map .report) ++ others ∧
      ∀ task ∈ others, task.Aside := by
  refine ⟨_, List.append_assoc _ _ _, fun task h => ?_⟩
  rcases List.mem_append.mp h with h | h
  · obtain ⟨e, he, rfl⟩ := List.mem_map.mp h
    exact Task.aside_of_constEdits he
  · split at h
    · exact nomatch h
    · exact Task.aside_of_facetTasks h

/-- What a task of a pair shows if nothing below the pair shows anything. -/
def shownBy (sort : Change → Bool) (path : String) : Task → List Change
  | .report edit => [⟨path, edit⟩].filter sort
  | .descend .. => []

section

open Session

variable {sort : Change → Bool} {descend : Visit → Comparing Unit}
  {price : Schema → Schema → Comparing Nat} {v : Visit}

theorem note_done (n : Note) (notebook : Notebook) :
    (note n notebook).1 = Outcome.done () := rfl

theorem follow_done (refs : References) (s : Schema) (notebook : Notebook) :
    (follow refs s notebook).1 = Outcome.done (refs.follow s).schema := by
  unfold follow
  rcases (refs.follow s).dangling with _ | r <;> rfl

theorem shows_alignBranches (setting : Setting) (path : String) {old new : Schema}
    {split : Bool} (priced : ∀ s t, Shows sort (price s t) [])
    (below : ∀ columns, ∀ w ∈ branchVisits path split (Course.branches old new).1
      (Course.branches old new).2 columns, Shows sort (descend w) []) :
    Shows sort (alignBranches setting descend price path old new split) [] := by
  unfold alignBranches
  unfold Course.branches at below
  rcases hold : old.anyOf with _ | olds
  · exact Shows.done ()
  rcases hnew : new.anyOf with _ | news
  · exact Shows.done ()
  rw [hold, hnew] at below
  refine (Shows.collect fun s _ => Shows.collect fun t _ => priced s t).bind fun costs => ?_
  refine Shows.bind_done (note_done _) ?_
  have visits := Shows.each (below (setting.align (costs.map fun row => row.map Int.ofNat)))
  rw [List.flatMap_eq_nil_iff.mpr fun _ _ => rfl] at visits
  exact visits

/-- If neither prices nor the pairs below show anything, a visit shows what its tasks do. -/
theorem shows_visit (setting : Setting) (priced : ∀ s t, Shows sort (price s t) [])
    (branches : ∀ columns, ∀ w ∈ branchVisits v.path (Course.newOf setting v).split?.isSome
      (Course.branchesOf setting v).1 (Course.branchesOf setting v).2 columns,
        Shows sort (descend w) [])
    (parts : ∀ step s t, .descend step s t ∈ Course.tasksOf setting v →
      Shows sort (descend ⟨v.path ++ step.suffix, s, t, false⟩) []) :
    Shows sort (visit setting descend price v)
      ((Course.tasksOf setting v).flatMap (shownBy sort v.path)) := by
  have performed (task : Task) (htask : task ∈ Course.tasksOf setting v) :
      Shows sort (perform descend v.path task) (shownBy sort v.path task) := by
    cases task with
    | report edit => exact Shows.emit _
    | descend step s t => exact parts step s t htask
  have body := (shows_alignBranches setting v.path priced branches).bind fun _ =>
    Shows.each performed
  rw [List.nil_append] at body
  refine Shows.bind_done (follow_done setting.old v.old) ?_
  refine Shows.bind_done (follow_done setting.new v.new) ?_
  show Shows sort (if Course.isSplit setting v = true then _ else _) _
  split
  · exact Shows.bind_done (note_done _) body
  · exact body

end

section

variable {setting : Setting} {v w : Visit} {path : String}

/-- Prices are found out silently. -/
theorem shows_memoised {sort : Change → Bool} (memoised : setting.pricing = Setting.memoised)
    (levels : Nat) (s t : Schema) :
    Session.Shows sort (setting.pricing
      (fun s t => Session.tally (compareWithin setting levels ⟨"", s, t, false⟩)) s t) [] := by
  rw [memoised]
  exact Session.Shows.fetch (Session.Shows.tally _)

/-- A branch stands at a path that goes on from the path of its pair, by the step to a branch of the
schemas or by the one to a branch that the comparison has made. -/
theorem branchVisit_path {split : Bool} {olds news : List Schema} {columns : List Nat}
    (hw : w ∈ branchVisits path split olds news columns) :
    ∃ step : Step, w.path = path ++ step.suffix ∧ (step = .splitBranch ↔ split = true) ∧
      w.aligned = true ∧ w.new ∈ news := by
  obtain ⟨⟨s, j⟩, -, made⟩ := List.mem_filterMap.mp hw
  obtain ⟨t, ht, rfl⟩ := Option.map_eq_some_iff.mp made
  refine ⟨_, rfl, ?_, rfl, List.mem_of_getElem? ht⟩
  cases split <;> simp

/-- The path is nowhere below another one. -/
def Away (path above : String) : Prop := ∀ rest, path ≠ above ++ rest

theorem Away.below {above : String} (h : Away path above) (suffix : String) :
    Away path (above ++ suffix) := by
  intro rest
  rw [String.append_assoc]
  exact h (suffix ++ rest)

theorem away_of_suffix {suffix : String} (h : suffix ≠ "") : Away path (path ++ suffix) := by
  intro rest same
  have length := congrArg String.length same
  rw [String.append_assoc, String.length_append, String.length_append] at length
  have empty : suffix.length = 0 := by omega
  exact h (String.length_eq_zero_iff.mp empty)

/-- Comparing a pair shows nothing at a path that is not below the path of the pair. -/
theorem shows_elsewhere (memoised : setting.pricing = Setting.memoised) (levels : Nat)
    (away : Away path v.path) :
    Session.Shows (Change.isOfKindsAt path) (compareWithin setting levels v) [] := by
  induction levels generalizing v with
  | zero => exact Session.Shows.fail _ _
  | succ levels ih =>
    have branches (columns : List Nat) (w : Visit)
        (hw : w ∈ branchVisits v.path (Course.newOf setting v).split?.isSome
          (Course.branchesOf setting v).1 (Course.branchesOf setting v).2 columns) :
        Session.Shows (Change.isOfKindsAt path) (compareWithin setting levels w) [] := by
      obtain ⟨step, there, -⟩ := branchVisit_path hw
      exact ih (there ▸ away.below step.suffix)
    have visited := shows_visit setting (shows_memoised memoised levels) branches
      fun step _ _ _ => ih (away.below step.suffix)
    have other : v.path ≠ path := fun same => away "" (by rw [same, String.append_empty])
    rw [List.flatMap_eq_nil_iff.mpr] at visited
    · exact visited
    · intro task _
      cases task with
      | report edit => simp [shownBy, Change.isOfKindsAt, other]
      | descend => rfl

theorem shownBy_typeEdits (path : String) (s t : Schema) :
    ((Task.typeEdits s t).map Task.report).flatMap (shownBy (Change.isOfKindsAt path) path) =
      (Task.typeEdits s t).map (Change.mk path) := by
  rw [List.flatMap_map, List.map_eq_flatMap]
  refine List.flatMap_congr fun e he => ?_
  have ofKinds : e.isOfKinds = true := by
    rcases List.mem_append.mp he with he | he
    all_goals
      obtain ⟨k, -, rfl⟩ := List.mem_map.mp he
      rfl
  simp [shownBy, Change.isOfKindsAt, ofKinds]

/-- At the path of a pair its own kinds are shown, if its branches show nothing there. -/
theorem shows_here (memoised : setting.pricing = Setting.memoised) (levels : Nat)
    (branches : ∀ columns, ∀ w ∈ branchVisits v.path (Course.newOf setting v).split?.isSome
      (Course.branchesOf setting v).1 (Course.branchesOf setting v).2 columns,
        Session.Shows (Change.isOfKindsAt v.path) (compareWithin setting levels w) []) :
    Session.Shows (Change.isOfKindsAt v.path) (compareWithin setting (levels + 1) v)
      (if v.aligned then [] else
        (Task.typeEdits (Course.oldOf setting v).split (Course.newOf setting v).split).map
          (Change.mk v.path)) := by
  obtain ⟨others, all, aside⟩ := tasks_eq v.aligned (Course.isSplit setting v)
    (Course.oldOf setting v).split (Course.newOf setting v).split
  have further {step : Step} {s t : Schema} (h : .descend step s t ∈ Course.tasksOf setting v) :
      step ≠ .splitBranch := by
    rw [Course.tasksOf, all] at h
    rcases List.mem_append.mp h with h | h
    · split at h
      · cases h
      · obtain ⟨e, -, made⟩ := List.mem_map.mp h
        cases made
    · exact aside _ h
  have visited := shows_visit setting (shows_memoised memoised levels) branches
    fun step s t h => shows_elsewhere memoised levels (away_of_suffix (Step.suffix_ne (further h)))
  have quiet : others.flatMap (shownBy (Change.isOfKindsAt v.path) v.path) = [] := by
    refine List.flatMap_eq_nil_iff.mpr fun task htask => ?_
    have aside := aside task htask
    cases task with
    | report edit =>
      have other : edit.isOfKinds = false := aside
      simp [shownBy, Change.isOfKindsAt, other]
    | descend => rfl
  rw [Course.tasksOf, all, List.flatMap_append, quiet, List.append_nil] at visited
  split at visited
  · next aligned =>
    rw [if_pos aligned]
    exact visited
  · next alone =>
    rw [if_neg alone]
    rw [shownBy_typeEdits] at visited
    exact visited

/-- The branches that the comparison makes have nothing to split up and no branches of their
own. -/
theorem simple_of_split {s t u : Schema} (split : t.split?.isSome = true)
    (hu : u ∈ (Course.branches s t.split).2) :
    u.reference = none ∧ u.split? = none ∧ u.anyOf = none := by
  have made : ∃ ks : List Kind,
      t.split = { Schema.everything with anyOf := some (ks.map t.project) } := by
    unfold Schema.split
    unfold Schema.split? at split ⊢
    split
    · exact ⟨_, rfl⟩
    · next other =>
      split at split
      · next ks listed none => exact absurd none (other ks listed)
      · exact nomatch split
  obtain ⟨ks, made⟩ := made
  unfold Course.branches at hu
  rw [made] at hu
  split at hu
  · next olds news _ same =>
    obtain rfl := Option.some.inj same
    rcases List.mem_append.mp hu with hu | hu
    · obtain ⟨k, -, rfl⟩ := List.mem_map.mp hu
      cases k <;> exact ⟨rfl, rfl, rfl⟩
    · rw [List.eq_of_mem_replicate hu]
      exact ⟨rfl, rfl, rfl⟩
  · exact nomatch hu

/-- An aligned pair without branches on the right shows no kinds at its path. -/
theorem shows_branchless (memoised : setting.pricing = Setting.memoised) (levels : Nat)
    (aligned : v.aligned = true) (branchless : (Course.newOf setting v).split.anyOf = none) :
    Session.Shows (Change.isOfKindsAt v.path) (compareWithin setting levels v) [] := by
  cases levels with
  | zero => exact Session.Shows.fail _ _
  | succ levels =>
    have none_aligned : Course.branchesOf setting v = ([], []) := by
      unfold Course.branchesOf Course.branches
      rw [branchless]
      rcases (Course.oldOf setting v).split.anyOf with _ | olds <;> rfl
    have shown := shows_here (v := v) memoised levels fun columns w hw => by
      rw [none_aligned] at hw
      exact nomatch hw
    rw [if_pos aligned] at shown
    exact shown

/-- A comparison that comes to its end reports the kinds of its pair at the path of the pair, and
no branch adds to them. -/
theorem shows_kinds (memoised : setting.pricing = Setting.memoised) (levels : Nat) (v : Visit) :
    Session.Shows (Change.isOfKindsAt v.path) (compareWithin setting levels v)
      (if v.aligned then [] else
        (Task.typeEdits (Course.oldOf setting v).split (Course.newOf setting v).split).map
          (Change.mk v.path)) := by
  cases levels with
  | zero => exact Session.Shows.fail _ _
  | succ levels =>
    refine shows_here memoised levels fun columns w hw => ?_
    obtain ⟨step, there, made_iff, aligned, among⟩ := branchVisit_path hw
    by_cases made : step = .splitBranch
    · -- A branch that the comparison has made stands at the same path, but it is aligned.
      obtain ⟨reference, whole, branchless⟩ := simple_of_split (made_iff.mp made) among
      have same : w.path = v.path := by
        rw [there, made]
        exact String.append_empty
      rw [← same]
      refine shows_branchless memoised levels aligned ?_
      rw [Course.newOf, References.follow_of_no_reference setting.new reference, Schema.split, whole]
      exact branchless
    · refine shows_elsewhere memoised levels ?_
      rw [there]
      exact away_of_suffix (Step.suffix_ne made)

/-- Splitting up the lists of kinds does not matter to the changes of kinds. -/
theorem typeEdits_split (s t : Schema) :
    Task.typeEdits s.split t.split = Task.typeEdits s t := by
  unfold Task.typeEdits
  rw [Schema.kindSet_split, Schema.kindSet_split]

/-- The kinds that the first of two types admits and the second does not. -/
theorem filter_kindSet (a b : Typing) :
    (a.kindSet.filter fun k => !b.kindSet.contains k) =
      Kind.all.filter fun k => a.admitted.contains k && !b.admitted.contains k := by
  have agrees (k : Kind) : b.kindSet.contains k = b.admitted.contains k := by
    rw [Bool.eq_iff_iff, List.contains_iff_mem, List.contains_iff_mem, Typing.mem_kindSet]
  show List.filter _ (Kind.all.filter _) = _
  rw [List.filter_filter]
  refine List.filter_congr fun k _ => ?_
  rw [agrees, Bool.and_comm]

/-- The changes of kinds at the path of a pair, in a comparison that comes to its end, are exactly
those between the kinds that its two schemas admit once their references are followed: the kinds
that are lost and then those that are gained, both in reporting order. There are none if the pair
is aligned. Nothing is asked of the roots, the depth, or what the memo holds. -/
theorem kindChanges_exact (old new : Schema) (limit : DepthLimit) (call : Call)
    (notebook : Notebook) {u : Unit}
    (ended : ((Setting.ofRoots old new limit.value).answer call notebook).1.result = .ok u) :
    let before := ((References.ofRoot old).follow call.visit.old).schema.typing.admitted
    let after := ((References.ofRoot new).follow call.visit.new).schema.typing.admitted
    ((Setting.ofRoots old new limit.value).answer call notebook).1.emitted.filter
        (Change.isOfKindsAt call.visit.path) =
      if call.visit.aligned then [] else
        (Kind.all.filter fun k => before.contains k && !after.contains k).map
          (fun k => ⟨call.visit.path, .typeRemove k⟩) ++
        (Kind.all.filter fun k => after.contains k && !before.contains k).map
          (fun k => ⟨call.visit.path, .typeAdd k⟩) := by
  intro before after
  have shown := shows_kinds (v := call.visit) rfl _ notebook u ended
  rw [typeEdits_split, Task.typeEdits, filter_kindSet, filter_kindSet, List.map_append,
    List.map_map, List.map_map] at shown
  exact shown

end

/-- A root that defines a text or a number. -/
def textOrNumber : Schema :=
  { Schema.everything with
    definitions := [("A", { Schema.everything with kinds := some [.string, .number] })] }

/-- A comparison below the roots, of a reference and a list of kinds. -/
def mixedCall : Call where
  depth := 1
  visit :=
    { path := ".a"
      old := { Schema.everything with reference := some "#/definitions/A" }
      new := { Schema.everything with kinds := some [.null, .string, .boolean] }
      aligned := false }

/-- The branches on both sides come from lists of kinds, and one of them stands for two kinds. -/
theorem kindChanges_exact_mixed :
    ((Setting.ofRoots textOrNumber .everything 2).answer mixedCall (.empty 1, [])).1.result =
        .ok () ∧
      ((Setting.ofRoots textOrNumber .everything 2).answer mixedCall
          (.empty 1, [])).1.emitted.filter (Change.isOfKindsAt ".a") =
        [⟨".a", .typeRemove .number⟩, ⟨".a", .typeRemove .integer⟩, ⟨".a", .typeAdd .boolean⟩,
          ⟨".a", .typeAdd .null⟩] := by
  have ended : ((Setting.ofRoots textOrNumber .everything 2).answer mixedCall
      (.empty 1, [])).1.result = .ok () := ok_of_toOption (by decide +kernel)
  exact ⟨ended, kindChanges_exact textOrNumber .everything ⟨2, by decide⟩ mixedCall (.empty 1, [])
    ended⟩

end Comparing

end SchemaDrift
