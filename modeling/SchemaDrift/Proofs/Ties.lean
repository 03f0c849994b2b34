import SchemaDrift.Proofs.Flat
import SchemaDrift.Proofs.KindChanges

/-!
# Ties between assignments

Several assignments may share the least total. The price of a pair of branches counts the changes of
its kinds, but they are left out once the pair is aligned, so assignments with the same total may
report different numbers of changes.

* `Course.EvenTies` says that all assignments of least total leave out equally many changes of
  kinds, wherever branches are aligned.
* `Comparison.length_changes_eq`: then the number of changes does not depend on the choice.
* `Comparison.ties_matter`: without this condition it does.
-/

namespace SchemaDrift

namespace Outcome

variable {ω ε α : Type}

/-- What parts emit together is as long as what they emit one by one. -/
theorem length_each {f : α → Outcome ω ε Unit} {xs : List α} {u : Unit}
    (h : (each f xs).result = .ok u) :
    (each f xs).emitted.length = (xs.map fun x => (f x).emitted.length).sum := by
  induction xs with
  | nil => rfl
  | cons x xs ih =>
    obtain ⟨v, first, rest⟩ := andThen_eq_ok h
    rw [each, andThen_ok first, List.map_cons, List.sum_cons, ← ih rest]
    exact List.length_append

end Outcome

/-- The setting that is the same except for the way to align branches. -/
def Setting.aligning (setting : Setting) (align : Assignment.Costs → List Nat) : Setting :=
  { setting with align }

namespace Course

open Assignment

/-! ## What is left out where branches are aligned -/

/-- How many changes of kinds there are between two schemas whose references are followed. -/
def kindCount (setting : Setting) (s t : Schema) : Nat :=
  (Task.typeEdits (setting.old.follow s).schema (setting.new.follow t).schema).length

/-- How many changes of kinds an assignment of branches leaves out. -/
def leftOut (setting : Setting) (sides : List Schema × List Schema) (columns : List Nat) : Int :=
  total (square (sides.1.map fun s => sides.2.map (kindCount setting s))) columns

/-- The pairs that a comparison meets on its way from a pair: the pair itself, its pairs of
branches, whichever are aligned, and the pairs that its tasks go on with. -/
inductive Meets (setting : Setting) (s t : Schema) : Schema → Schema → Prop where
  | here : Meets setting s t s t
  | branch {u w a b : Schema} : Meets setting s t u w →
      a ∈ (branchesOf setting ⟨"", u, w, false⟩).1 →
      b ∈ (branchesOf setting ⟨"", u, w, false⟩).2 → Meets setting s t a b
  | task {u w a b : Schema} {step : Step} : Meets setting s t u w →
      .descend step a b ∈ tasksOf setting ⟨"", u, w, false⟩ → Meets setting s t a b

/-- Wherever branches are aligned on the way from a pair, all assignments of least total leave out
equally many changes of kinds. -/
def EvenTies (setting : Setting) (s t : Schema) : Prop :=
  ∀ u w, Meets setting s t u w → ∀ levels costs,
    (prices (price setting levels) (branchesOf setting ⟨"", u, w, false⟩)).result = .ok costs →
    ∀ p q, Least (square costs) p → Least (square costs) q →
      leftOut setting (branchesOf setting ⟨"", u, w, false⟩) p =
        leftOut setting (branchesOf setting ⟨"", u, w, false⟩) q

/-! ## Aligned branches -/

variable {setting : Setting} {levels : Nat}

theorem length_kindChanges (path : String) (s t : Schema) :
    (kindChanges setting ⟨path, s, t, false⟩).length = kindCount setting s t := by
  rw [kindChanges, List.length_map, Comparing.typeEdits_split]
  rfl

/-- All aligned pairs together report as many changes as the total of their prices says, except for
the changes of kinds that are left out. -/
theorem length_branchVisits {news : List Schema} (path : String) (split : Bool)
    {olds : List Schema} {costs : List (List Nat)}
    (priced : List.Forall₂ (Priced setting levels news) olds costs) {columns : List Nat}
    (all : columns.length = olds.length) (within_news : ∀ j ∈ columns, j < news.length) :
    (((Comparing.branchVisits path split olds news columns).map fun w =>
        (within setting levels w).emitted.length).sum : Int) +
      leftOut setting (olds, news) columns = total (square costs) columns := by
  induction priced generalizing columns with
  | nil =>
    obtain rfl := List.eq_nil_of_length_eq_zero all
    rfl
  | @cons s row olds costs first _ ih =>
    obtain _ | ⟨j, columns⟩ := columns
    · exact nomatch all
    obtain ⟨t, ht⟩ : ∃ t, news[j]? = some t :=
      ⟨_, List.getElem?_eq_getElem (within_news j List.mem_cons_self)⟩
    obtain ⟨c, entry, cost⟩ := getElem?_forall₂ first ht
    have rest := ih (Nat.succ.inj all) fun i hi => within_news i (List.mem_cons_of_mem j hi)
    obtain ⟨step, visits⟩ : ∃ step : Step,
        Comparing.branchVisits path split (s :: olds) news (j :: columns) =
          ⟨path ++ step.suffix, s, t, true⟩ :: Comparing.branchVisits path split olds news columns :=
      ⟨if split then .splitBranch else .branch j, by
        simp [Comparing.branchVisits, ht]⟩
    have here := length_aligned cost (path ++ step.suffix)
    rw [length_kindChanges] at here
    have counted : (news.map (kindCount setting s))[j]? = some (kindCount setting s t) := by
      rw [List.getElem?_map, ht]
      rfl
    have left : leftOut setting (s :: olds, news) (j :: columns) =
        kindCount setting s t + leftOut setting (olds, news) columns := total_square_cons counted
    rw [visits, left, total_square_cons entry, List.map_cons, List.sum_cons, Int.natCast_add]
    omega

/-! ## The number of changes -/

/-- The branches of a pair report as many changes as the least total says, except for the changes of
kinds that are left out. -/
theorem length_branches (best : Optimal setting.align) {v : Visit} {costs : List (List Nat)}
    (found : (prices (price setting levels) (branchesOf setting v)).result = .ok costs) :
    (((branchVisits setting v costs).map fun w =>
        (within setting levels w).emitted.length).sum : Int) +
      leftOut setting (branchesOf setting v) (columns setting costs) =
        total (square costs) (columns setting costs) := by
  have priced := prices_eq_ok found
  have least := columns_least best found
  have sized : (branchesOf setting v).1.length = (branchesOf setting v).2.length :=
    branches_length _ _
  have count : (square costs).length = (branchesOf setting v).1.length := by
    rw [square, List.length_map, priced.length_eq]
  refine length_branchVisits v.path (newOf setting v).split?.isSome priced ?_ fun j hj => ?_
  · rw [least.perm.length_eq, List.length_range, count]
  · rw [← sized, ← count]
    exact List.mem_range.mp (least.perm.mem_iff.mp hj)

/-- All that is done for a pair, one number of changes for each job. -/
theorem length_within {v : Visit} {costs : List (List Nat)}
    (priced : (prices (price setting levels) (branchesOf setting v)).result = .ok costs)
    (ended : (within setting (levels + 1) v).result = .ok ()) :
    (within setting (levels + 1) v).emitted.length =
      ((branchVisits setting v costs).map fun w => (within setting levels w).emitted.length).sum +
        ((tasksOf setting v).map fun task =>
          ((Job.ofTask v.path task).outcome (within setting levels)).emitted.length).sum := by
  rw [within_of_prices priced] at ended ⊢
  rw [Outcome.length_each ended, jobs, List.map_append, List.sum_append, List.map_map, List.map_map]
  rfl

/-- What an aligned pair goes on with, it goes on with alone. -/
theorem mem_tasks_alone {aligned split : Bool} {s t : Schema} {task : Task}
    (h : task ∈ Comparing.tasks aligned split s t) : task ∈ Comparing.tasks false split s t := by
  cases aligned with
  | false => exact h
  | true =>
    rcases List.mem_append.mp h with h | h
    · exact List.mem_append_left _ (List.mem_append_right _ h)
    · exact List.mem_append_right _ h

/-- If no tie matters on the way, the number of changes does not depend on how branches are
aligned. The induction is on the levels: prices are numbers of changes one level below. -/
theorem length_within_eq {align : Costs → List Nat} (best : Optimal setting.align)
    (best' : Optimal align) {s t : Schema} (even : EvenTies setting s t) (levels : Nat) {v : Visit}
    (met : Meets setting s t v.old v.new) (ended : (within setting levels v).result = .ok ())
    (ended' : (within (setting.aligning align) levels v).result = .ok ()) :
    (within setting levels v).emitted.length =
      (within (setting.aligning align) levels v).emitted.length := by
  induction levels generalizing v with
  | zero => exact nomatch ended
  | succ levels ih =>
    obtain ⟨costs, found⟩ := prices_of_within_eq_ok ended
    obtain ⟨costs', found'⟩ := prices_of_within_eq_ok ended'
    have priced := prices_eq_ok found
    have priced' := prices_eq_ok found'
    -- Trials report equally many changes both ways, so the prices are the same.
    have same : costs = costs' := by
      refine forall₂_unique (fun a ha row _ row' _ hrow hrow' => ?_) priced priced'
      refine forall₂_unique (fun b hb c _ c' _ hc hc' => ?_) hrow hrow'
      obtain ⟨⟨⟨⟩, done⟩, rfl⟩ := Outcome.tally_eq_ok hc
      obtain ⟨⟨⟨⟩, done'⟩, rfl⟩ := Outcome.tally_eq_ok hc'
      exact ih (v := ⟨"", a, b, false⟩) (met.branch ha hb) done done'
    subst same
    -- Both totals are the least one, and equally many changes of kinds are left out of them.
    have visited : ((branchVisits setting v costs).map fun x =>
          (within setting levels x).emitted.length).sum =
        ((branchVisits (setting.aligning align) v costs).map fun x =>
          (within (setting.aligning align) levels x).emitted.length).sum := by
      have least := columns_least best found
      have least' : Least (square costs) (columns (setting.aligning align) costs) :=
        columns_least best' found'
      have left := even v.old v.new met levels costs found _ _ least least'
      have total := least.total_eq least'
      have visits := length_branches best found
      have visits' := length_branches best' found'
      rw [total, ← visits'] at visits
      exact Int.ofNat.inj ((Int.add_left_inj _).mp (visits.trans (congrArg _ left.symm)))
    have tasks (task : Task) (htask : task ∈ tasksOf setting v) :
        ((Job.ofTask v.path task).outcome (within setting levels)).emitted.length =
          ((Job.ofTask v.path task).outcome
            (within (setting.aligning align) levels)).emitted.length := by
      obtain ⟨done, -⟩ := task_of_within ended htask
      obtain ⟨done', -⟩ := task_of_within ended' htask
      cases task with
      | report edit => rfl
      | descend step a b =>
        exact ih (v := ⟨v.path ++ step.suffix, a, b, false⟩) (met.task (mem_tasks_alone htask)) done
          done'
    rw [length_within found ended, length_within found' ended', visited]
    exact congrArg _ (congrArg List.sum (List.map_congr_left tasks))

/-! ## Even ties -/

theorem leftOut_of_constant {olds news : List Schema} {count : Nat}
    (h : ∀ a ∈ olds, ∀ b ∈ news, kindCount setting a b = count) {columns : List Nat}
    (all : columns.length = olds.length) (within_news : ∀ j ∈ columns, j < news.length) :
    leftOut setting (olds, news) columns = olds.length * count := by
  induction olds generalizing columns with
  | nil =>
    obtain rfl := List.eq_nil_of_length_eq_zero all
    exact (Int.zero_mul _).symm
  | cons s olds ih =>
    obtain _ | ⟨j, columns⟩ := columns
    · exact nomatch all
    have hj : j < news.length := within_news j List.mem_cons_self
    have counted : (news.map (kindCount setting s))[j]? = some count := by
      rw [List.getElem?_map, List.getElem?_eq_getElem hj, Option.map_some,
        h s List.mem_cons_self _ (List.getElem_mem hj)]
    have rest := ih (fun a ha => h a (List.mem_cons_of_mem s ha)) (Nat.succ.inj all) fun i hi =>
      within_news i (List.mem_cons_of_mem j hi)
    have first : leftOut setting (s :: olds, news) (j :: columns) =
        count + leftOut setting (olds, news) columns := total_square_cons counted
    rw [first, rest, List.length_cons, Int.natCast_succ, Int.add_mul, Int.one_mul, Int.add_comm]

/-- If all pairs of branches that are met together have equally many changes of kinds, no tie
matters. -/
theorem evenTies_of_constant {s t : Schema} (count : Schema → Schema → Nat)
    (h : ∀ u w, Meets setting s t u w → ∀ a ∈ (branchesOf setting ⟨"", u, w, false⟩).1,
      ∀ b ∈ (branchesOf setting ⟨"", u, w, false⟩).2, kindCount setting a b = count u w) :
    EvenTies setting s t := by
  intro u w met levels costs found p q hp hq
  have sized : (branchesOf setting ⟨"", u, w, false⟩).1.length =
      (branchesOf setting ⟨"", u, w, false⟩).2.length := branches_length _ _
  have rows : (square costs).length = (branchesOf setting ⟨"", u, w, false⟩).1.length := by
    rw [square, List.length_map, (prices_eq_ok found).length_eq]
  have constant {columns : List Nat} (least : Least (square costs) columns) :
      leftOut setting (branchesOf setting ⟨"", u, w, false⟩) columns =
        (branchesOf setting ⟨"", u, w, false⟩).1.length * count u w := by
    refine leftOut_of_constant (h u w met) ?_ fun j hj => ?_
    · rw [least.perm.length_eq, List.length_range, rows]
    · rw [← sized, ← rows]
      exact List.mem_range.mp (least.perm.mem_iff.mp hj)
  rw [constant hp, constant hq]

end Course

namespace Comparison

open Course

/-! ## Comparisons with other alignments -/

/-- Compares two roots as `ofRoots` does, with branches aligned in the given way. -/
def ofRootsBy (align : Assignment.Costs → List Nat) (limit : DepthLimit)
    (memo : Memo (String × String) Nat) (old new : Schema) : Comparison :=
  let setting := (Setting.ofRoots old new limit.value).aligning align
  let (outcome, _, notes) :=
    compareWithin setting (setting.levelsFrom 0) ⟨"", old, new, false⟩ (memo, [])
  ⟨outcome.emitted, notes.reverse,
    match outcome.result with
    | .ok _ => none
    | .error e => some e⟩

/-- Compares two documents as `ofDocuments` does, with branches aligned in the given way. -/
def ofDocumentsBy (align : Assignment.Costs → List Nat) (limit : DepthLimit) (capacity : Int)
    (old new : Json) : Comparison :=
  match Schema.ofDocument old, Schema.ofDocument new, Memo.ofCapacity capacity with
  | .error e, _, _ => failed e
  | .ok _, .error e, _ => failed e
  | .ok _, .ok _, .error e => failed e
  | .ok s, .ok t, .ok memo => ofRootsBy align limit memo s t

theorem ofDocumentsBy_solve : ofDocumentsBy Assignment.solve = ofDocuments := rfl

variable {align align' : Assignment.Costs → List Nat} {limit : DepthLimit} {s t : Schema}
  {changes changes' : List Change}

/-- The outcome of the visit to the roots. -/
theorem outcome_of_changes {memo : Memo (String × String) Nat}
    (h : (ofRootsBy align limit memo s t).changes = .ok changes) :
    (compareWithin ((Setting.ofRoots s t limit.value).aligning align)
      (((Setting.ofRoots s t limit.value).aligning align).levelsFrom 0) (rootVisit s t)
        (memo, [])).1 = ⟨changes, .ok ()⟩ := by
  unfold Comparison.changes ofRootsBy at h
  dsimp only at h
  unfold rootVisit
  rcases run : compareWithin ((Setting.ofRoots s t limit.value).aligning align)
    (((Setting.ofRoots s t limit.value).aligning align).levelsFrom 0) ⟨"", s, t, false⟩
      (memo, []) with ⟨⟨items, e | u⟩, m, notes⟩ <;> simp_all

/-- A comparison of roots that comes to its end has taken its course. -/
theorem within_of_changes {capacity : Nat} (room : 1 ≤ capacity)
    (h : (ofRootsBy align limit (.empty capacity) s t).changes = .ok changes) :
    ∃ enough, ∀ n, enough ≤ n →
      within ((Setting.ofRoots s t limit.value).aligning align) n (rootVisit s t) =
        ⟨changes, .ok ()⟩ := by
  have sound : HoldsPrices ((Setting.ofRoots s t limit.value).aligning align)
      (.empty capacity, []) := Memo.sound_empty room
  obtain ⟨-, -, -, enough, below⟩ := tracks_memoised rfl
    (((Setting.ofRoots s t limit.value).aligning align).levelsFrom 0) (rootVisit s t) _ sound
  have outcome := outcome_of_changes h
  refine ⟨enough, fun n hn => ?_⟩
  obtain ⟨-, same⟩ := below n hn
  exact (same () (congrArg Outcome.result outcome)).trans outcome

/-- What comes out of a comparison of two documents that are schemas. -/
theorem ofDocumentsBy_eq (align : Assignment.Costs → List Nat) (limit : DepthLimit) {capacity : Int}
    (room : 1 ≤ capacity) {old new : Json} (hs : Schema.ofDocument old = .ok s)
    (ht : Schema.ofDocument new = .ok t) :
    ∃ n, 1 ≤ n ∧ ofDocumentsBy align limit capacity old new = ofRootsBy align limit (.empty n) s t := by
  obtain ⟨n, rfl⟩ := Int.eq_ofNat_of_zero_le (Int.le_trans Int.one_nonneg room)
  refine ⟨n, Int.ofNat_le.mp room, ?_⟩
  unfold ofDocumentsBy
  rw [hs, ht]
  rfl

/-- Two comparisons of the same documents that both come to their ends report equally many changes,
however each of them chooses among the assignments of least total, if no tie matters on the way. -/
theorem length_changes_eq (limit : DepthLimit) {capacity : Int} (room : 1 ≤ capacity)
    (best : Assignment.Optimal align) (best' : Assignment.Optimal align') {old new : Json}
    (builtOld : Schema.ofDocument old = .ok s) (builtNew : Schema.ofDocument new = .ok t)
    (even : EvenTies ((Setting.ofRoots s t limit.value).aligning align) s t)
    (ended : (ofDocumentsBy align limit capacity old new).changes = .ok changes)
    (ended' : (ofDocumentsBy align' limit capacity old new).changes = .ok changes') :
    changes.length = changes'.length := by
  obtain ⟨n, some_room, compared⟩ := ofDocumentsBy_eq align limit room builtOld builtNew
  obtain ⟨n', some_room', compared'⟩ := ofDocumentsBy_eq align' limit room builtOld builtNew
  rw [compared] at ended
  rw [compared'] at ended'
  obtain ⟨enough, course⟩ := within_of_changes some_room ended
  obtain ⟨enough', course'⟩ := within_of_changes some_room' ended'
  have course := course (max enough enough') (Nat.le_max_left _ _)
  have course' := course' (max enough enough') (Nat.le_max_right _ _)
  have same := length_within_eq best best' even (max enough enough') (v := rootVisit s t) .here
    (congrArg Outcome.result course) (congrArg Outcome.result course')
  rw [course] at same
  exact same.trans (congrArg (fun o => o.emitted.length) course')

/-! ## A tie that does not matter, and one that does -/

/-- The choice that differs from `Assignment.solve` for one square only: there it crosses the two
rows over. -/
def crossing (square costs : Assignment.Costs) : List Nat :=
  if costs = square then [1, 0] else Assignment.solve costs

theorem crossing_optimal {square : Assignment.Costs} (size : square.length = 2)
    (tie : Assignment.total square [1, 0] = Assignment.total square (Assignment.solve square)) :
    Assignment.Optimal (crossing square) := by
  intro costs isSquare
  unfold crossing
  split
  · next same =>
    rw [same]
    refine ⟨?_, fun others h => ?_⟩
    · rw [size]
      exact .swap 0 1 []
    · rw [tie]
      exact Assignment.solve_le square h
  · exact Assignment.solve_optimal costs isSquare

def textFrom (least : Nat) : Schema :=
  { Schema.everything with
    kinds := some [.string]
    text := { StringRules.none with minLength := some least } }

def textsFrom (least more : Nat) : Schema := .choice [textFrom least, textFrom more]

def textsFromDocument (least more : Nat) : Json :=
  .obj [("anyOf", .arr
    [.obj [("type", .str "string"), ("minLength", .num (.int least))],
      .obj [("type", .str "string"), ("minLength", .num (.int more))]])]

theorem textFrom_shallow (least : Nat) : (textFrom least).Shallow := ⟨rfl, rfl, rfl, rfl, rfl⟩

/-- On the way between two texts and two others only texts are met. -/
theorem meets_textsFrom {setting : Setting} {u w : Schema}
    (met : Meets setting (textsFrom 1 2) (textsFrom 3 4) u w) :
    (u = textsFrom 1 2 ∧ w = textsFrom 3 4) ∨ ∃ m n, u = textFrom m ∧ w = textFrom n := by
  have texts {k l : Nat} {a : Schema} (ha : a ∈ [textFrom k, textFrom l]) :
      ∃ n, a = textFrom n := by
    rcases List.mem_cons.mp ha with rfl | ha
    · exact ⟨k, rfl⟩
    · exact ⟨l, List.mem_singleton.mp ha⟩
  induction met with
  | here => exact .inl ⟨rfl, rfl⟩
  | branch _ ha hb ih =>
    rcases ih with ⟨rfl, rfl⟩ | ⟨m, n, rfl, rfl⟩
    · obtain ⟨m, rfl⟩ := texts (k := 1) (l := 2) ha
      obtain ⟨n, rfl⟩ := texts (k := 3) (l := 4) hb
      exact .inr ⟨m, n, rfl, rfl⟩
    · exact nomatch ha
  | task _ htask ih =>
    refine absurd htask ?_
    rcases ih with ⟨rfl, rfl⟩ | ⟨m, n, rfl, rfl⟩
    · unfold textsFrom
      rw [tasksOf_shallow (Schema.shallow_choice _) (Schema.shallow_choice _)
        (Schema.split?_choice _) (Schema.split?_choice _)]
      simp
    · rw [tasksOf_shallow (textFrom_shallow m) (textFrom_shallow n) rfl rfl]
      simp

theorem evenTies_textsFrom (setting : Setting) :
    EvenTies setting (textsFrom 1 2) (textsFrom 3 4) := by
  have same (m n : Nat) : kindCount setting (textFrom m) (textFrom n) = 0 := rfl
  refine evenTies_of_constant (fun _ _ => 0) fun u w met a ha b hb => ?_
  have met' := meets_textsFrom (met.branch ha hb)
  rcases met' with ⟨rfl, rfl⟩ | ⟨m, n, rfl, rfl⟩
  · rfl
  · exact same m n

/-- Between two texts and two others all assignments cost the same. -/
theorem length_changes_eq_texts :
    (1 : Int) ≤ 1 ∧ Assignment.Optimal Assignment.solve ∧
    Assignment.Optimal (crossing [[1, 1], [1, 1]]) ∧
    Schema.ofDocument (textsFromDocument 1 2) = .ok (textsFrom 1 2) ∧
    Schema.ofDocument (textsFromDocument 3 4) = .ok (textsFrom 3 4) ∧
    EvenTies ((Setting.ofRoots (textsFrom 1 2) (textsFrom 3 4) 128).aligning Assignment.solve)
      (textsFrom 1 2) (textsFrom 3 4) ∧
    ∃ changes changes',
      (ofDocumentsBy Assignment.solve .standard 1 (textsFromDocument 1 2)
        (textsFromDocument 3 4)).changes = .ok changes ∧
      (ofDocumentsBy (crossing [[1, 1], [1, 1]]) .standard 1 (textsFromDocument 1 2)
        (textsFromDocument 3 4)).changes = .ok changes' ∧
      changes.length = changes'.length := by
  have crossed : Assignment.Optimal (crossing [[1, 1], [1, 1]]) :=
    crossing_optimal rfl (by decide +kernel)
  have builtOld : Schema.ofDocument (textsFromDocument 1 2) = .ok (textsFrom 1 2) := rfl
  have builtNew : Schema.ofDocument (textsFromDocument 3 4) = .ok (textsFrom 3 4) := rfl
  have even := evenTies_textsFrom
    ((Setting.ofRoots (textsFrom 1 2) (textsFrom 3 4) 128).aligning Assignment.solve)
  obtain ⟨changes, ended⟩ : ∃ changes, (ofDocumentsBy Assignment.solve .standard 1
      (textsFromDocument 1 2) (textsFromDocument 3 4)).changes = .ok changes :=
    exists_ok_of_isSome (by decide +kernel)
  obtain ⟨changes', ended'⟩ : ∃ changes, (ofDocumentsBy (crossing [[1, 1], [1, 1]]) .standard 1
      (textsFromDocument 1 2) (textsFromDocument 3 4)).changes = .ok changes :=
    exists_ok_of_isSome (by decide +kernel)
  exact ⟨Int.le_refl 1, Assignment.solve_optimal, crossed, builtOld, builtNew, even, changes,
    changes', ended, ended',
    length_changes_eq .standard (Int.le_refl 1) Assignment.solve_optimal crossed builtOld builtNew
      even ended ended'⟩

/-- A text with limits on its length, or an integer. -/
def limitedText : Json :=
  .obj [("anyOf", .arr
    [.obj [("type", .str "string"), ("minLength", .num (.int 1)), ("maxLength", .num (.int 5))],
      .obj [("type", .str "integer")]])]

/-- A text, or an integer with limits that mean nothing to it. -/
def limitedInteger : Json :=
  .obj [("anyOf", .arr
    [.obj [("type", .str "string")],
      .obj [("type", .str "integer"), ("minLength", .num (.int 1)), ("maxLength", .num (.int 5))]])]

/-- The number of changes does depend on the choice among assignments of least total. Every pair
of these branches costs two, but pairs of the same kind differ in their limits, which are reported,
and the others in their kinds, which are not. -/
theorem ties_matter :
    ¬∀ (align align' : Assignment.Costs → List Nat) (limit : DepthLimit) (capacity : Int)
      (old new : Json) (changes changes' : List Change), 1 ≤ capacity →
      Assignment.Optimal align → Assignment.Optimal align' →
      (ofDocumentsBy align limit capacity old new).changes = .ok changes →
      (ofDocumentsBy align' limit capacity old new).changes = .ok changes' →
      changes.length = changes'.length := by
  intro independent
  have crossed : Assignment.Optimal (crossing [[2, 2], [2, 2]]) :=
    crossing_optimal rfl (by decide +kernel)
  have straight : (ofDocumentsBy Assignment.solve .standard 1 limitedText
      limitedInteger).changes.toOption.map List.length = some 4 := by decide +kernel
  have across : (ofDocumentsBy (crossing [[2, 2], [2, 2]]) .standard 1 limitedText
      limitedInteger).changes.toOption.map List.length = some 0 := by decide +kernel
  obtain ⟨changes, ended, four⟩ := Option.map_eq_some_iff.mp straight
  obtain ⟨changes', ended', zero⟩ := Option.map_eq_some_iff.mp across
  have same := independent _ _ _ _ _ _ changes changes' (Int.le_refl 1) Assignment.solve_optimal
    crossed (ok_of_toOption ended) (ok_of_toOption ended')
  rw [four, zero] at same
  exact nomatch same

end Comparison

end SchemaDrift
