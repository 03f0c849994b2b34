import SchemaDrift.Comparison.Descent
import SchemaDrift.Proofs.Outcome

/-!
# The course of a comparison

The course of a comparison is what it reports and how it ends if nothing is remembered: every price
is found out by a trial of its own. It depends on the pair and on the levels that are left, and on
no state.

* `Course.jobs` lists what there is to do for a pair once its branches have their prices: changes
  to report and visits to make.
* `Course.within` is the course with a number of levels left.
* `Course.tracks_visit` is the one fact about `Comparing.visit` that the rest builds on: a visit
  tracks `Course.visited`, whatever is known of the visits below and of the prices.
* `Course.within_eq_unremembered` says that a comparison without memory takes its course.
* `Course.precedes_of_le` says that more levels only extend a course.
* `Course.within_aligned` and `Course.length_aligned` compare a pair that is aligned with the same
  pair alone.
-/

namespace SchemaDrift

/-- The setting that is the same except that every price is found out by a trial of its own. -/
def Setting.unremembered (setting : Setting) : Setting :=
  { setting with pricing := fun trial => trial }

namespace Course

/-! ## One pair -/

/-- A thing to do for a pair whose branches are aligned. -/
inductive Job where
  | report (change : Change)
  | go (visit : Visit)

def Job.ofTask (path : String) : Task → Job
  | .report edit => .report ⟨path, edit⟩
  | .descend step s t => .go ⟨path ++ step.suffix, s, t, false⟩

def Job.outcome (descend : Visit → Outcome Change Fault Unit) : Job → Outcome Change Fault Unit
  | .report change => .emit change
  | .go v => descend v

/-- The old schema of a visit after its references are followed. -/
def oldOf (setting : Setting) (v : Visit) : Schema := (setting.old.follow v.old).schema

def newOf (setting : Setting) (v : Visit) : Schema := (setting.new.follow v.new).schema

def isSplit (setting : Setting) (v : Visit) : Bool :=
  (oldOf setting v).split?.isSome || (newOf setting v).split?.isSome

/-- The branches of two schemas, filled up to a common length; none unless both have some. -/
def branches (old new : Schema) : List Schema × List Schema :=
  match old.anyOf, new.anyOf with
  | some olds, some news =>
    (Comparing.fillUp (max olds.length news.length) olds,
      Comparing.fillUp (max olds.length news.length) news)
  | _, _ => ([], [])

/-- The branches that a visit aligns. -/
def branchesOf (setting : Setting) (v : Visit) : List Schema × List Schema :=
  branches (oldOf setting v).split (newOf setting v).split

def prices (price : Schema → Schema → Outcome Change Fault Nat)
    (sides : List Schema × List Schema) : Outcome Change Fault (List (List Nat)) :=
  .collect (fun s => .collect (price s) sides.2) sides.1

/-- The columns that are chosen for the rows of a square of prices. -/
def columns (setting : Setting) (costs : List (List Nat)) : List Nat :=
  setting.align (costs.map fun row => row.map Int.ofNat)

def branchVisits (setting : Setting) (v : Visit) (costs : List (List Nat)) : List Visit :=
  Comparing.branchVisits v.path (newOf setting v).split?.isSome (branchesOf setting v).1
    (branchesOf setting v).2 (columns setting costs)

/-- The tasks of a visit beside its branches. -/
def tasksOf (setting : Setting) (v : Visit) : List Task :=
  Comparing.tasks v.aligned (isSplit setting v) (oldOf setting v).split (newOf setting v).split

/-- All that is to be done for a pair whose branches have the given prices. -/
def jobs (setting : Setting) (v : Visit) (costs : List (List Nat)) : List Job :=
  (branchVisits setting v costs).map .go ++ (tasksOf setting v).map (Job.ofTask v.path)

/-- The outcome of a visit, given those of the visits below and of the trials. -/
def visited (setting : Setting) (descend : Visit → Outcome Change Fault Unit)
    (price : Schema → Schema → Outcome Change Fault Nat) (v : Visit) :
    Outcome Change Fault Unit :=
  (prices price (branchesOf setting v)).andThen fun costs =>
    .each (Job.outcome descend) (jobs setting v costs)

/-- The course of a comparison with a number of levels left. -/
def within (setting : Setting) : Nat → Visit → Outcome Change Fault Unit
  | 0, v => .fail (.tooDeep v.path setting.limit)
  | levels + 1, v =>
    visited setting (within setting levels)
      (fun s t => (within setting levels ⟨"", s, t, false⟩).tally) v

/-- The price of a pair of branches with a number of levels left. -/
def price (setting : Setting) (levels : Nat) (s t : Schema) : Outcome Change Fault Nat :=
  (within setting levels ⟨"", s, t, false⟩).tally

/-- The fault of going deeper than a limit. -/
def IsTooDeep (limit : Nat) (e : Fault) : Prop := ∃ path, e = .tooDeep path limit

/-! ## Visits track their courses -/

section Tracking

open Session

variable {known : Memo (String × String) Nat → Prop} {fault : Fault → Prop} {base : Nat}

theorem tracks_note (n : Note) :
    Tracks (fun s => known s.1) fault base (Comparing.note n) fun _ => .done () :=
  Tracks.update fun _ hs => hs

theorem tracks_follow (refs : References) (s : Schema) :
    Tracks (fun s => known s.1) fault base (Comparing.follow refs s) fun _ =>
      .done (refs.follow s).schema := by
  unfold Comparing.follow
  rcases h : (refs.follow s).dangling with _ | r
  · simp only [h]
    exact Tracks.done _
  · simp only [h]
    exact (tracks_note (.dangling r)).bind_done (Tracks.done _)

variable {descend : Visit → Comparing Unit} {price : Schema → Schema → Comparing Nat}
  {below : Nat → Visit → Outcome Change Fault Unit}
  {cost : Nat → Schema → Schema → Outcome Change Fault Nat}

theorem tracks_perform
    (hd : ∀ v, Tracks (fun s => known s.1) fault base (descend v) fun n => below n v)
    (path : String) (t : Task) :
    Tracks (fun s => known s.1) fault base (Comparing.perform descend path t) fun n =>
      (Job.ofTask path t).outcome (below n) := by
  cases t with
  | report edit => exact Tracks.emit _
  | descend step s t => exact hd _

theorem tracks_alignBranches (setting : Setting)
    (hd : ∀ v, Tracks (fun s => known s.1) fault base (descend v) fun n => below n v)
    (hp : ∀ s t, Tracks (fun s => known s.1) fault base (price s t) fun n => cost n s t)
    (path : String) (old new : Schema) (split : Bool) :
    Tracks (fun s => known s.1) fault base
      (Comparing.alignBranches setting descend price path old new split) fun n =>
        (prices (cost n) (branches old new)).andThen fun costs =>
          .each (below n) (Comparing.branchVisits path split (branches old new).1
            (branches old new).2 (columns setting costs)) := by
  unfold Comparing.alignBranches branches
  rcases old.anyOf with _ | olds
  · exact Tracks.done ()
  rcases new.anyOf with _ | news
  · exact Tracks.done ()
  refine (Tracks.collect fun s _ => Tracks.collect fun t _ => hp s t).bind fun costs => ?_
  exact (tracks_note (.aligned path (columns setting costs))).bind_done
    (Tracks.each fun v _ => hd v)

/-- A visit tracks the outcome that the visits below it and the prices lead to. -/
theorem tracks_visit (setting : Setting)
    (hd : ∀ v, Tracks (fun s => known s.1) fault base (descend v) fun n => below n v)
    (hp : ∀ s t, Tracks (fun s => known s.1) fault base (price s t) fun n => cost n s t)
    (v : Visit) :
    Tracks (fun s => known s.1) fault base (Comparing.visit setting descend price v) fun n =>
      visited setting (below n) (cost n) v := by
  have body := (tracks_alignBranches setting hd hp v.path (oldOf setting v).split
    (newOf setting v).split (newOf setting v).split?.isSome).bind fun _ =>
      Tracks.each (l := tasksOf setting v) fun t _ => tracks_perform hd v.path t
  simp only [Outcome.andThen_assoc] at body
  simp only [visited, jobs, Outcome.each_append, Outcome.each_map]
  refine (tracks_follow setting.old v.old).bind_done ?_
  refine (tracks_follow setting.new v.new).bind_done ?_
  show Tracks _ fault base (if isSplit setting v = true then _ else _) _
  split
  · exact (tracks_note _).bind_done body
  · exact body

end Tracking

/-! ## Comparisons without memory -/

theorem tracks_unremembered (setting : Setting) (known : Memo (String × String) Nat → Prop)
    (levels : Nat) (v : Visit) :
    Session.Tracks (fun s => known s.1) (IsTooDeep setting.limit) 0
      (compareWithin setting.unremembered levels v) fun _ => within setting levels v := by
  induction levels generalizing v with
  | zero => exact Session.Tracks.fail ⟨v.path, rfl⟩
  | succ levels ih =>
    exact tracks_visit setting.unremembered ih (fun s t => (ih ⟨"", s, t, false⟩).tally) v

/-- A comparison without memory that comes to its end took its course. -/
theorem within_eq_unremembered {setting : Setting} {levels : Nat} {v : Visit}
    {notebook : Notebook} {u : Unit}
    (h : (compareWithin setting.unremembered levels v notebook).1.result = .ok u) :
    within setting levels v = (compareWithin setting.unremembered levels v notebook).1 := by
  obtain ⟨-, -, -, enough, below⟩ :=
    tracks_unremembered setting (fun _ => True) levels v notebook trivial
  exact (below enough (Nat.le_refl _)).2 u h

/-! ## More levels -/

theorem Job.outcome_precedes {f g : Visit → Outcome Change Fault Unit}
    (h : ∀ v, (f v).Precedes (g v)) (job : Job) : (job.outcome f).Precedes (job.outcome g) := by
  cases job with
  | report change => exact .refl _
  | go v => exact h v

theorem visited_precedes (setting : Setting) {f g : Visit → Outcome Change Fault Unit}
    {c d : Schema → Schema → Outcome Change Fault Nat} (hfg : ∀ v, (f v).Precedes (g v))
    (hcd : ∀ s t, (c s t).Precedes (d s t)) (v : Visit) :
    (visited setting f c v).Precedes (visited setting g d v) := by
  have prices : (prices c (branchesOf setting v)).Precedes (prices d (branchesOf setting v)) :=
    .collect fun s _ => .collect fun t _ => hcd s t
  exact prices.andThen fun costs _ => .each fun job _ => job.outcome_precedes hfg

theorem within_precedes_succ (setting : Setting) (levels : Nat) (v : Visit) :
    (within setting levels v).Precedes (within setting (levels + 1) v) := by
  induction levels generalizing v with
  | zero => exact .fail _ _
  | succ levels ih =>
    exact visited_precedes setting ih (fun s t => (ih ⟨"", s, t, false⟩).tally) v

/-- With more levels a comparison goes at least as far. -/
theorem precedes_of_le (setting : Setting) {m n : Nat} (h : m ≤ n) (v : Visit) :
    (within setting m v).Precedes (within setting n v) := by
  induction h with
  | refl => exact .refl _
  | step _ ih => exact ih.trans (within_precedes_succ setting _ v)

/-! ## What a visit comes to -/

theorem prices_silent (setting : Setting) (levels : Nat) (sides : List Schema × List Schema) :
    (prices (price setting levels) sides).emitted = [] :=
  Outcome.collect_silent fun _ _ => Outcome.collect_silent fun _ _ => Outcome.tally_emitted _

theorem within_succ (setting : Setting) (levels : Nat) (v : Visit) :
    within setting (levels + 1) v =
      (prices (price setting levels) (branchesOf setting v)).andThen fun costs =>
        .each (Job.outcome (within setting levels)) (jobs setting v costs) := rfl

/-- A visit whose branches have their prices is its jobs, one after the other. -/
theorem within_of_prices {setting : Setting} {levels : Nat} {v : Visit} {costs : List (List Nat)}
    (h : (prices (price setting levels) (branchesOf setting v)).result = .ok costs) :
    within setting (levels + 1) v =
      .each (Job.outcome (within setting levels)) (jobs setting v costs) := by
  rw [within_succ, Outcome.andThen_ok h, prices_silent, List.nil_append]

/-- A visit whose branches cannot be priced reports nothing. -/
theorem within_of_no_prices {setting : Setting} {levels : Nat} {v : Visit} {e : Fault}
    (h : (prices (price setting levels) (branchesOf setting v)).result = .error e) :
    within setting (levels + 1) v = .fail e := by
  rw [within_succ, Outcome.andThen_error h, prices_silent, Outcome.fail]

/-- A visit that comes to its end has its prices. -/
theorem prices_of_within_eq_ok {setting : Setting} {levels : Nat} {v : Visit} {u : Unit}
    (h : (within setting (levels + 1) v).result = .ok u) :
    ∃ costs, (prices (price setting levels) (branchesOf setting v)).result = .ok costs := by
  obtain ⟨costs, priced, -⟩ := Outcome.andThen_eq_ok h
  exact ⟨costs, priced⟩

/-- If the visit to a pair comes to its end, so does each of its tasks, and what the task reports
is reported. -/
theorem task_of_within {setting : Setting} {levels : Nat} {v : Visit}
    (ended : (within setting (levels + 1) v).result = .ok ()) {task : Task}
    (h : task ∈ tasksOf setting v) :
    ((Job.ofTask v.path task).outcome (within setting levels)).result = .ok () ∧
      ∀ c ∈ ((Job.ofTask v.path task).outcome (within setting levels)).emitted,
        c ∈ (within setting (levels + 1) v).emitted := by
  obtain ⟨costs, priced⟩ := prices_of_within_eq_ok ended
  rw [within_of_prices priced] at ended ⊢
  exact Outcome.each_eq_ok ended (List.mem_append_right _ (List.mem_map_of_mem h))

/-! ## Other places

A course depends on the path it starts from only in the paths of what it reports. Trials start from
the empty path, so a price is the same wherever the pair stands.
-/

/-- A change behind a further path. -/
def changeUnder (base : String) (c : Change) : Change := { c with path := base ++ c.path }

def visitUnder (base : String) (v : Visit) : Visit := { v with path := base ++ v.path }

def Job.under (base : String) : Job → Job
  | .report c => .report (changeUnder base c)
  | .go v => .go (visitUnder base v)

/-- The second outcome is the first one behind a further path. -/
def Moved (base : String) (o p : Outcome Change Fault Unit) : Prop :=
  p.emitted = o.emitted.map (changeUnder base) ∧ (o.result = .ok () ↔ p.result = .ok ())

theorem branchVisits_under (base path : String) (split : Bool) (olds news : List Schema)
    (columns : List Nat) :
    Comparing.branchVisits (base ++ path) split olds news columns =
      (Comparing.branchVisits path split olds news columns).map (visitUnder base) := by
  simp only [Comparing.branchVisits, List.map_filterMap]
  refine congrArg (fun f => List.filterMap f _) (funext fun (s, j) => ?_)
  simp only [Option.map_map]
  refine congrArg (fun f => Option.map f _) (funext fun t => ?_)
  simp [visitUnder, String.append_assoc]

theorem ofTask_under (base path : String) (t : Task) :
    Job.ofTask (base ++ path) t = (Job.ofTask path t).under base := by
  cases t with
  | report edit => rfl
  | descend step s t => simp [Job.ofTask, Job.under, visitUnder, String.append_assoc]

theorem jobs_under (setting : Setting) (base : String) (v : Visit) (costs : List (List Nat)) :
    jobs setting (visitUnder base v) costs = (jobs setting v costs).map (Job.under base) := by
  have visits : branchVisits setting (visitUnder base v) costs =
      (branchVisits setting v costs).map (visitUnder base) :=
    branchVisits_under base v.path _ _ _ _
  have tasks : tasksOf setting (visitUnder base v) = tasksOf setting v := rfl
  simp only [jobs, visits, tasks, List.map_append, List.map_map]
  refine congrArg₂ _ rfl (List.map_congr_left fun t _ => ?_)
  exact ofTask_under base v.path t

theorem Moved.each {base : String} {f : Visit → Outcome Change Fault Unit} {jobs : List Job}
    (h : ∀ v, Moved base (f v) (f (visitUnder base v))) :
    Moved base (.each (Job.outcome f) jobs)
      (.each (Job.outcome f) (jobs.map (Job.under base))) := by
  induction jobs with
  | nil => exact ⟨rfl, Iff.rfl⟩
  | cons job jobs ih =>
    have first : Moved base (job.outcome f) ((job.under base).outcome f) := by
      cases job with
      | report c => exact ⟨rfl, Iff.rfl⟩
      | go v => exact h v
    simp only [List.map_cons, Outcome.each]
    rcases hj : (job.outcome f).result with e | u
    · rcases hk : ((job.under base).outcome f).result with e' | u'
      · rw [Outcome.andThen_error hj, Outcome.andThen_error hk]
        exact ⟨first.1, by simp⟩
      · exact absurd (first.2.mpr hk) (by simp [hj])
    · rw [Outcome.andThen_ok hj, Outcome.andThen_ok (first.2.mp hj)]
      exact ⟨by simp [first.1, ih.1], ih.2⟩

/-- The course behind a further path. -/
theorem within_under (setting : Setting) (base : String) (levels : Nat) (v : Visit) :
    Moved base (within setting levels v) (within setting levels (visitUnder base v)) := by
  induction levels generalizing v with
  | zero => exact ⟨rfl, by simp [within, Outcome.fail]⟩
  | succ levels ih =>
    -- Prices are found out from an empty path, wherever the pair stands.
    rcases hp : (prices (price setting levels) (branchesOf setting v)).result with e | costs
    · rw [within_of_no_prices hp, within_of_no_prices (v := visitUnder base v) hp]
      exact ⟨rfl, Iff.rfl⟩
    · rw [within_of_prices hp, within_of_prices (v := visitUnder base v) hp, jobs_under]
      exact Moved.each ih

/-! ## Aligned pairs

The course of an aligned pair is that of the pair alone without the changes of its kinds.
-/

def kindChanges (setting : Setting) (v : Visit) : List Change :=
  (Task.typeEdits (oldOf setting v).split (newOf setting v).split).map fun e => ⟨v.path, e⟩

/-- The tasks of a pair after its branches and its kinds. -/
def laterTasks (setting : Setting) (v : Visit) : List Task :=
  Comparing.tasks true (isSplit setting v) (oldOf setting v).split (newOf setting v).split

theorem each_reports (f : Visit → Outcome Change Fault Unit) (changes : List Change) :
    .each (Job.outcome f) (changes.map .report) = (⟨changes, .ok ()⟩ : Outcome Change Fault Unit) := by
  induction changes with
  | nil => rfl
  | cons c changes ih => simp [Outcome.each, ih, Outcome.andThen, Job.outcome, Outcome.emit]

theorem tasksOf_alone (setting : Setting) (v : Visit) :
    tasksOf setting { v with aligned := false } =
      (Task.typeEdits (oldOf setting v).split (newOf setting v).split).map .report ++
        laterTasks setting v := by
  simp only [tasksOf, laterTasks, Comparing.tasks, List.append_assoc]
  rfl

theorem jobs_alone (setting : Setting) (v : Visit) (costs : List (List Nat)) :
    jobs setting { v with aligned := false } costs =
      (branchVisits setting v costs).map .go ++ ((kindChanges setting v).map .report ++
        (laterTasks setting v).map (Job.ofTask v.path)) := by
  simp only [jobs, tasksOf_alone, kindChanges, List.map_append, List.map_map]
  rfl

/-- Whatever a pair reports alone, it reports when it is aligned, except the changes of its
kinds. -/
theorem within_aligned {setting : Setting} {levels : Nat} {v : Visit} {u : Unit}
    (h : (within setting levels { v with aligned := false }).result = .ok u) :
    ∃ before after,
      (within setting levels { v with aligned := false }).emitted =
        before ++ kindChanges setting v ++ after ∧
      within setting levels { v with aligned := true } = ⟨before ++ after, .ok ()⟩ := by
  cases levels with
  | zero => exact nomatch h
  | succ levels =>
    obtain ⟨costs, priced⟩ := prices_of_within_eq_ok h
    -- Both ways the branches come first and cost the same; only the kinds are left out.
    have alone := within_of_prices priced
    have paired := within_of_prices (v := { v with aligned := true }) priced
    rw [jobs_alone, Outcome.each_append, Outcome.each_append, each_reports] at alone
    have later : jobs setting { v with aligned := true } costs =
        (branchVisits setting v costs).map .go ++ (laterTasks setting v).map (Job.ofTask v.path) :=
      rfl
    rw [later, Outcome.each_append] at paired
    rw [alone] at h
    obtain ⟨⟨⟩, visited, h⟩ := Outcome.andThen_eq_ok h
    obtain ⟨⟨⟩, -, tasked⟩ := Outcome.andThen_eq_ok h
    refine ⟨(Outcome.each (Job.outcome (within setting levels))
        ((branchVisits setting v costs).map .go)).emitted,
      (Outcome.each (Job.outcome (within setting levels))
        ((laterTasks setting v).map (Job.ofTask v.path))).emitted, ?_, ?_⟩
    · rw [alone, Outcome.andThen_ok visited, Outcome.andThen_ok rfl, List.append_assoc]
    · rw [paired, Outcome.andThen_ok visited, tasked]

/-- An aligned pair reports as many changes as its price says, except for those of its kinds. The
price was found out from an empty path, but it is the same wherever the pair stands. -/
theorem length_aligned {setting : Setting} {levels : Nat} {s t : Schema} {c : Nat}
    (h : (price setting levels s t).result = .ok c) (path : String) :
    (within setting levels ⟨path, s, t, true⟩).emitted.length +
      (kindChanges setting ⟨path, s, t, false⟩).length = c := by
  obtain ⟨⟨⟨⟩, ended⟩, rfl⟩ := Outcome.tally_eq_ok h
  obtain ⟨moved, ends⟩ := within_under setting path levels ⟨"", s, t, false⟩
  have there : visitUnder path ⟨"", s, t, false⟩ = ⟨path, s, t, false⟩ := by
    simp [visitUnder]
  rw [there] at moved ends
  obtain ⟨before, after, alone, aligned⟩ := within_aligned (v := ⟨path, s, t, false⟩) (ends.mp ended)
  have aligned' : within setting levels ⟨path, s, t, true⟩ = ⟨before ++ after, .ok ()⟩ := aligned
  have length := congrArg List.length (moved.symm.trans alone)
  rw [aligned']
  simp only [List.length_map, List.length_append] at length ⊢
  omega

end Course

end SchemaDrift
