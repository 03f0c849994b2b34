import SchemaDrift.Proofs.Reflexivity
import SchemaDrift.Proofs.Schema.Restated

/-!
# Presentation does not matter

Two documents in other words are compared step by step as the documents themselves: the same tasks
come up in the same order, pairs of branches have the same prices, and so the same pairs are
aligned. What is remembered may differ all the same, since its keys are texts in which the order of
tables shows; but what is remembered does not count.

* `Outcome.Parallel` says that two outcomes end alike and emit related items, and
  `Outcome.Parallel.andThen` and its companions put such outcomes together.
* `Task.facetTasks_same`: two pairs with the same rules in another order have the same tasks.
* `Course.within_parallel`: the courses of two such pairs are parallel, however deep they go.
* `Comparison.restated_same_changes` is the statement about documents.
-/

namespace SchemaDrift

/-! ## Parallel outcomes -/

/-- Two outcomes end alike and emit as many items, each related to its counterpart. -/
structure Outcome.Parallel {ω ε α : Type} (R : ω → ω → Prop) (o p : Outcome ω ε α) : Prop where
  emitted : List.Forall₂ R o.emitted p.emitted
  result : o.result = p.result

namespace Outcome.Parallel

variable {ω ε α β γ : Type} {R : ω → ω → Prop}

theorem done (x : α) : Parallel R (Outcome.done (ε := ε) x) (Outcome.done x) := ⟨.nil, rfl⟩

theorem fail (e : ε) : Parallel R (Outcome.fail (α := α) e) (Outcome.fail e) := ⟨.nil, rfl⟩

theorem emit {x y : ω} (h : R x y) : Parallel R (Outcome.emit (ε := ε) x) (Outcome.emit y) :=
  ⟨.cons h .nil, rfl⟩

theorem andThen {o p : Outcome ω ε α} {f g : α → Outcome ω ε β} (h : Parallel R o p)
    (hfg : ∀ x, Parallel R (f x) (g x)) : Parallel R (o.andThen f) (p.andThen g) := by
  rcases ended : o.result with e | x
  · rw [andThen_error ended, andThen_error (h.result.symm.trans ended)]
    exact ⟨h.emitted, rfl⟩
  · rw [andThen_ok ended, andThen_ok (h.result.symm.trans ended)]
    exact ⟨List.rel_append h.emitted (hfg x).emitted, (hfg x).result⟩

theorem each {f : α → Outcome ω ε Unit} {g : β → Outcome ω ε Unit} {xs : List α} {ys : List β}
    (h : List.Forall₂ (fun x y => Parallel R (f x) (g y)) xs ys) :
    Parallel R (Outcome.each f xs) (Outcome.each g ys) := by
  induction h with
  | nil => exact done ()
  | cons first _ ih => exact first.andThen fun _ => ih

theorem collect {f : α → Outcome ω ε γ} {g : β → Outcome ω ε γ} {xs : List α} {ys : List β}
    (h : List.Forall₂ (fun x y => Parallel R (f x) (g y)) xs ys) :
    Parallel R (Outcome.collect f xs) (Outcome.collect g ys) := by
  induction h with
  | nil => exact done []
  | cons first _ ih => exact first.andThen fun _ => ih.andThen fun _ => done _

/-- Parallel outcomes emit equally much. -/
theorem tally {o p : Outcome ω ε Unit} (h : Parallel R o p) : Parallel R o.tally p.tally := by
  unfold Outcome.tally
  rw [h.result, h.emitted.length_eq]
  split
  · exact done _
  · exact fail _

end Outcome.Parallel

/-! ## The same changes -/

/-- Two constants are the same but for the order of the keys of objects. If they do not contain
`nan`, they are equal. -/
def Json.SameValue (x y : Json) : Prop := x.Rekeyed y ∧ (x.Throughout NotNan → x.equal y = true)

theorem Json.Rekeyed.sameValue {x y : Json} (h : x.Rekeyed y) : x.SameValue y := ⟨h, h.equal⟩

/-- Two edits are the same but for the order of keys in constants. -/
inductive Edit.Same : Edit → Edit → Prop where
  | refl (e : Edit) : Edit.Same e e
  | constAdd {x y : Json} : x.SameValue y → Edit.Same (.constAdd x) (.constAdd y)
  | constRemove {x y : Json} : x.SameValue y → Edit.Same (.constRemove x) (.constRemove y)

/-- Two changes stand at the same place and are the same but for the order of keys in constants. -/
def Change.Same (c d : Change) : Prop := c.path = d.path ∧ c.edit.Same d.edit

/-! ## The same tasks -/

/-- Two tasks report the same edit, or go on with the same rules in another order. -/
inductive Task.Same : Task → Task → Prop where
  | report {e e' : Edit} : e.Same e' → Task.Same (.report e) (.report e')
  | descend (step : Step) {s s' t t' : Schema} : s.Rekeyed s' → t.Rekeyed t' →
    Task.Same (.descend step s t) (.descend step s' t')

namespace Task

open Schema

theorem reports_same {es es' : List Edit} (h : List.Forall₂ Edit.Same es es') :
    List.Forall₂ Task.Same (es.map .report) (es'.map .report) := by
  rw [List.forall₂_map_left_iff, List.forall₂_map_right_iff]
  exact h.imp fun _ _ same => .report same

theorem reports_eq {es es' : List Edit} (h : es = es') :
    List.Forall₂ Task.Same (es.map .report) (es'.map .report) :=
  h ▸ reports_same (List.forall₂_same.mpr fun e _ => .refl e)

variable {s s' t t' : Schema} (hs : s.Rekeyed s') (ht : t.Rekeyed t')

include hs ht

theorem typeEdits_rekeyed : typeEdits s t = typeEdits s' t' := by
  unfold typeEdits
  rw [typing_rekeyed hs, typing_rekeyed ht]

theorem constEdits_rekeyed : List.Forall₂ Edit.Same (constEdits s t) (constEdits s' t') := by
  unfold constEdits
  rcases rel_cases hs.unfold.const with ⟨ns, ns'⟩ | ⟨x, x', ns, ns', first⟩
  · rcases rel_cases ht.unfold.const with ⟨nt, nt'⟩ | ⟨y, y', nt, nt', second⟩
    · rw [ns, ns', nt, nt']
      exact .nil
    · rw [ns, ns', nt, nt']
      exact .cons (.constAdd second.sameValue) .nil
  · rcases rel_cases ht.unfold.const with ⟨nt, nt'⟩ | ⟨y, y', nt, nt', second⟩
    · rw [ns, ns', nt, nt']
      exact .cons (.constRemove first.sameValue) .nil
    · rw [ns, ns', nt, nt']
      dsimp only
      rw [Json.equal_rekeyed first second]
      split
      · exact .nil
      · exact .cons (.constRemove first.sameValue) (.cons (.constAdd second.sameValue) .nil)

omit ht in
theorem boundsOf_rekeyed : boundsOf s = boundsOf s' := by
  have m := hs.unfold
  unfold boundsOf
  rcases rel_cases m.anyOf with ⟨ns, ns'⟩ | ⟨ss, ss', ns, ns', paired⟩
  · rw [ns, ns']
    exact m.number
  · rw [ns, ns', m.number]
    cases paired with
    | nil => rfl
    | cons first rest =>
      cases rest with
      | nil =>
        dsimp only
        rw [first.unfold.number]
      | cons => rfl

theorem rangeEdits_rekeyed : rangeEdits s t = rangeEdits s' t' := by
  unfold rangeEdits
  rw [boundsOf_rekeyed hs, boundsOf_rekeyed ht]

theorem textEdits_rekeyed : textEdits s t = textEdits s' t' := by
  unfold textEdits
  rw [hs.unfold.text, ht.unfold.text]

theorem requiredEdits_rekeyed : requiredEdits s t = requiredEdits s' t' := by
  unfold requiredEdits
  rw [hs.unfold.required, ht.unfold.required]

omit ht in
theorem isOpen_rekeyed : isOpen s = isOpen s' := by
  unfold isOpen
  rcases rel_cases hs.unfold.additional with ⟨ns, ns'⟩ | ⟨u, v, ns, ns', related⟩
  · rw [ns, ns']
  · rw [ns, ns']
    exact isUnconstrained_rekeyed related

omit ht in
theorem propertyNames_rekeyed : propertyNames s = propertyNames s' :=
  Names.ofList_eq hs.unfold.properties.mem_keys

/-- Names are reported and visited in their own order, not in that of the tables. -/
theorem propertyTasks_same : List.Forall₂ Task.Same (propertyTasks s t) (propertyTasks s' t') := by
  unfold propertyTasks
  rw [isOpen_rekeyed hs, propertyNames_rekeyed hs, propertyNames_rekeyed ht]
  have itself (names : List String) (task : String → Edit) :
      List.Forall₂ Task.Same (names.map fun name => report (task name))
        (names.map fun name => report (task name)) := by
    rw [List.forall₂_same]
    intro _ hmem
    obtain ⟨name, -, rfl⟩ := List.mem_map.mp hmem
    exact .report (.refl _)
  refine List.rel_append (List.rel_append (itself _ _) (itself _ _)) ?_
  refine List.rel_filterMap (R := Eq) ?_ (by simp)
  rintro name _ rfl
  dsimp only
  rcases rel_cases (hs.unfold.properties.lookup name) with ⟨ns, ns'⟩ | ⟨u, u', ns, ns', first⟩
  · rw [ns, ns']
    exact .none
  · rcases rel_cases (ht.unfold.properties.lookup name) with ⟨nt, nt'⟩ | ⟨v, v', nt, nt', second⟩
    · rw [ns, ns', nt, nt']
      exact .none
    · rw [ns, ns', nt, nt']
      exact .some (.descend _ first second)

theorem additionalTasks_same :
    List.Forall₂ Task.Same (additionalTasks s t) (additionalTasks s' t') := by
  unfold additionalTasks
  rcases rel_cases hs.unfold.additional with ⟨ns, ns'⟩ | ⟨u, u', ns, ns', first⟩
  · rw [ns, ns']
    exact .nil
  · rcases rel_cases ht.unfold.additional with ⟨nt, nt'⟩ | ⟨v, v', nt, nt', second⟩
    · rw [ns, ns', nt, nt']
      exact .nil
    · rw [ns, ns', nt, nt']
      dsimp only
      rw [alike_rekeyed first second]
      split
      · exact .nil
      · exact .cons (.descend _ first second) .nil

omit hs ht in
theorem positionTasks_same {pairs pairs' : List (Schema × Schema)}
    (h : List.Forall₂ (fun p q => p.1.Rekeyed q.1 ∧ p.2.Rekeyed q.2) pairs pairs') (index : Nat) :
    List.Forall₂ Task.Same (positionTasks index pairs) (positionTasks index pairs') := by
  induction h generalizing index with
  | nil => exact .nil
  | cons first _ ih => exact .cons (.descend _ first.1 first.2) (ih (index + 1))

theorem itemTasks_same : List.Forall₂ Task.Same (itemTasks s t) (itemTasks s' t') := by
  unfold itemTasks
  rcases rel_cases hs.unfold.items with ⟨ns, ns'⟩ | ⟨a, a', ns, ns', first⟩
  · rw [ns, ns']
    exact .nil
  rcases rel_cases ht.unfold.items with ⟨nt, nt'⟩ | ⟨b, b', nt, nt', second⟩
  · rw [ns, ns', nt, nt']
    cases first <;> exact .nil
  rw [ns, ns', nt, nt']
  cases first with
  | every first =>
    cases second with
    | every second => exact .cons (.descend _ first second) .nil
    | positions second =>
      dsimp only
      rw [second.length_eq]
      refine .cons (.report (.refl _)) (positionTasks_same ?_ 0)
      rw [List.forall₂_map_left_iff, List.forall₂_map_right_iff]
      exact second.imp fun _ _ related => ⟨first, related⟩
  | positions first =>
    cases second with
    | every second =>
      dsimp only
      rw [first.length_eq]
      refine .cons (.report (.refl _)) (positionTasks_same ?_ 0)
      rw [List.forall₂_map_left_iff, List.forall₂_map_right_iff]
      exact first.imp fun _ _ related => ⟨related, second⟩
    | positions second =>
      dsimp only
      rw [first.length_eq, second.length_eq]
      refine List.rel_append ?_ (positionTasks_same (forall₂_zip first second) 0)
      split
      · exact .nil
      · exact .cons (.report (.refl _)) .nil

/-- Pairs with the same rules in another order have the same tasks in the same order. -/
theorem facetTasks_same : List.Forall₂ Task.Same (facetTasks s t) (facetTasks s' t') :=
  List.rel_append (List.rel_append (List.rel_append (List.rel_append (List.rel_append
    (propertyTasks_same hs ht) (reports_eq (rangeEdits_rekeyed hs ht)))
    (additionalTasks_same hs ht)) (itemTasks_same hs ht))
    (reports_eq (requiredEdits_rekeyed hs ht))) (reports_eq (textEdits_rekeyed hs ht))

theorem tasks_same (aligned split : Bool) :
    List.Forall₂ Task.Same (Comparing.tasks aligned split s t)
      (Comparing.tasks aligned split s' t') := by
  have first := unfoldConst_rekeyed hs
  have second := unfoldConst_rekeyed ht
  refine List.rel_append (List.rel_append ?_ (reports_same (constEdits_rekeyed first second))) ?_
  · split
    · exact .nil
    · exact reports_eq (typeEdits_rekeyed hs ht)
  · split
    · exact .nil
    · exact facetTasks_same first second

end Task

/-! ## Parallel courses -/

/-- Two visits at the same place to pairs with the same rules in another order. -/
structure Visit.Same (v w : Visit) : Prop where
  path : v.path = w.path
  old : v.old.Rekeyed w.old
  new : v.new.Rekeyed w.new
  aligned : v.aligned = w.aligned

/-- Two settings whose references lead to the same rules in another order. -/
structure Setting.Same (setting setting' : Setting) : Prop where
  old : setting.old.Rekeyed setting'.old
  new : setting.new.Rekeyed setting'.new
  limit : setting.limit = setting'.limit
  align : setting.align = setting'.align

namespace Course

open Schema

/-- Two jobs report the same change or make the same visit. -/
inductive Job.Same : Job → Job → Prop where
  | report {c d : Change} : c.Same d → Job.Same (.report c) (.report d)
  | go {v w : Visit} : v.Same w → Job.Same (.go v) (.go w)

theorem Job.Same.ofTask {task task' : Task} (h : task.Same task') (path : String) :
    (Job.ofTask path task).Same (Job.ofTask path task') := by
  cases h with
  | report same => exact .report ⟨rfl, same⟩
  | descend step old new => exact .go ⟨rfl, old, new, rfl⟩

theorem Job.Same.outcome {f g : Visit → Outcome Change Fault Unit}
    (h : ∀ v w, v.Same w → (f v).Parallel Change.Same (g w)) {job job' : Job}
    (same : job.Same job') : (job.outcome f).Parallel Change.Same (job'.outcome g) := by
  cases same with
  | report same => exact .emit same
  | go same => exact h _ _ same

theorem fillUp_same {ss ts : List Schema} (h : List.Forall₂ Rekeyed ss ts) (length : Nat) :
    List.Forall₂ Rekeyed (Comparing.fillUp length ss) (Comparing.fillUp length ts) := by
  unfold Comparing.fillUp
  rw [h.length_eq]
  refine List.rel_append h (List.forall₂_same.mpr fun u hu => ?_)
  rw [List.eq_of_mem_replicate hu]
  exact rekeyed_nothing

theorem branches_same {s s' t t' : Schema} (hs : s.Rekeyed s') (ht : t.Rekeyed t') :
    List.Forall₂ Rekeyed (branches s t).1 (branches s' t').1 ∧
      List.Forall₂ Rekeyed (branches s t).2 (branches s' t').2 := by
  unfold branches
  rcases rel_cases hs.unfold.anyOf with ⟨ns, ns'⟩ | ⟨ss, ss', ns, ns', first⟩
  · rw [ns, ns']
    exact ⟨.nil, .nil⟩
  · rcases rel_cases ht.unfold.anyOf with ⟨nt, nt'⟩ | ⟨ts, ts', nt, nt', second⟩
    · rw [ns, ns', nt, nt']
      exact ⟨.nil, .nil⟩
    · rw [ns, ns', nt, nt']
      dsimp only
      rw [first.length_eq, second.length_eq]
      exact ⟨fillUp_same first _, fillUp_same second _⟩

theorem branchVisits_same {olds olds' news news' : List Schema}
    (first : List.Forall₂ Rekeyed olds olds') (second : List.Forall₂ Rekeyed news news')
    (path : String) (split : Bool) (columns : List Nat) :
    List.Forall₂ Visit.Same (Comparing.branchVisits path split olds news columns)
      (Comparing.branchVisits path split olds' news' columns) := by
  have pairs := forall₂_zip first (List.forall₂_same.mpr fun j (_ : j ∈ columns) => rfl)
  refine List.rel_filterMap ?_ pairs
  rintro ⟨s, j⟩ ⟨s', _⟩ ⟨related, rfl⟩
  dsimp only at related ⊢
  rcases rel_cases (forall₂_getElem? second j) with ⟨nt, nt'⟩ | ⟨t, t', nt, nt', partner⟩
  · rw [nt, nt']
    exact .none
  · rw [nt, nt']
    exact .some ⟨rfl, related, partner, rfl⟩

theorem prices_parallel {price price' : Schema → Schema → Outcome Change Fault Nat}
    (h : ∀ s s' t t', s.Rekeyed s' → t.Rekeyed t' →
      (price s t).Parallel Change.Same (price' s' t'))
    {sides sides' : List Schema × List Schema} (first : List.Forall₂ Rekeyed sides.1 sides'.1)
    (second : List.Forall₂ Rekeyed sides.2 sides'.2) :
    (prices price sides).Parallel Change.Same (prices price' sides') :=
  .collect (first.imp fun _ _ hs => .collect (second.imp fun _ _ ht => h _ _ _ _ hs ht))

section

variable {setting setting' : Setting} (same : setting.Same setting')

include same

theorem jobs_same {v w : Visit} (h : v.Same w) (costs : List (List Nat)) :
    List.Forall₂ Job.Same (jobs setting v costs) (jobs setting' w costs) := by
  have old : (oldOf setting v).Rekeyed (oldOf setting' w) :=
    References.follow_rekeyed same.old h.old
  have new : (newOf setting v).Rekeyed (newOf setting' w) :=
    References.follow_rekeyed same.new h.new
  have splitOld := isSome_rel (split?_rekeyed old)
  have splitNew := isSome_rel (split?_rekeyed new)
  obtain ⟨first, second⟩ := branches_same (split_rekeyed old) (split_rekeyed new)
  have visits : List.Forall₂ Visit.Same (branchVisits setting v costs)
      (branchVisits setting' w costs) := by
    unfold branchVisits columns
    rw [same.align, h.path, splitNew]
    exact branchVisits_same first second _ _ _
  have tasks : List.Forall₂ Task.Same (tasksOf setting v) (tasksOf setting' w) := by
    unfold tasksOf isSplit
    rw [splitOld, splitNew, h.aligned]
    exact Task.tasks_same (split_rekeyed old) (split_rekeyed new) _ _
  unfold jobs
  rw [h.path]
  refine List.rel_append ?_ ?_
  · rw [List.forall₂_map_left_iff, List.forall₂_map_right_iff]
    exact visits.imp fun _ _ same => .go same
  · rw [List.forall₂_map_left_iff, List.forall₂_map_right_iff]
    exact tasks.imp fun _ _ same => .ofTask same _

/-- What holds of the visits below and of the prices holds of a visit. -/
theorem visited_parallel {descend descend' : Visit → Outcome Change Fault Unit}
    {price price' : Schema → Schema → Outcome Change Fault Nat}
    (hd : ∀ v w, v.Same w → (descend v).Parallel Change.Same (descend' w))
    (hp : ∀ s s' t t', s.Rekeyed s' → t.Rekeyed t' →
      (price s t).Parallel Change.Same (price' s' t')) {v w : Visit} (h : v.Same w) :
    (visited setting descend price v).Parallel Change.Same
      (visited setting' descend' price' w) := by
  obtain ⟨first, second⟩ := branches_same
    (split_rekeyed (References.follow_rekeyed same.old h.old))
    (split_rekeyed (References.follow_rekeyed same.new h.new))
  refine (prices_parallel hp first second).andThen fun costs => .each ?_
  exact (jobs_same same h costs).imp fun _ _ job => job.outcome hd

/-- The courses of pairs with the same rules in another order are parallel. -/
theorem within_parallel (levels : Nat) {v w : Visit} (h : v.Same w) :
    (within setting levels v).Parallel Change.Same (within setting' levels w) := by
  induction levels generalizing v w with
  | zero =>
    unfold within
    rw [same.limit, h.path]
    exact .fail _
  | succ levels ih =>
    -- Trials are visits from an empty path, so prices agree if courses are parallel.
    have price (s s' t t' : Schema) (hs : s.Rekeyed s') (ht : t.Rekeyed t') :
        (price setting levels s t).Parallel Change.Same (price setting' levels s' t') :=
      (ih (v := ⟨"", s, t, false⟩) (w := ⟨"", s', t', false⟩) ⟨rfl, hs, ht, rfl⟩).tally
    exact visited_parallel same (fun _ _ => ih) price h

end

end Course

/-! ## Documents -/

namespace Comparison

theorem isOk_restated {x y : Json} (h : Schema.RestatedRoot x y)
    (distinct : x.Throughout Json.DistinctKeys) (distinct' : y.Throughout Json.DistinctKeys) :
    (∃ s, Schema.ofDocument x = .ok s) ↔ ∃ t, Schema.ofDocument y = .ok t := by
  constructor
  · rintro ⟨s, hs⟩
    obtain ⟨t, ht, -⟩ := Schema.ofDocument_restated h distinct distinct' hs
    exact ⟨t, ht⟩
  · rintro ⟨t, ht⟩
    obtain ⟨s, hs, -⟩ := Schema.ofDocument_restated h.symm distinct' distinct ht
    exact ⟨s, hs⟩

/-- A comparison of documents that came to its end took its course. -/
theorem course_of_changes {limit : DepthLimit} {capacity : Int} (room : 1 ≤ capacity)
    {old new : Json} {s t : Schema} (hs : Schema.ofDocument old = .ok s)
    (ht : Schema.ofDocument new = .ok t) {changes : List Change}
    (ended : (ofDocuments limit capacity old new).changes = .ok changes) :
    ∃ enough, ∀ levels, enough ≤ levels →
      Course.within (Setting.ofRoots s t limit.value) levels (rootVisit s t) =
        ⟨changes, .ok ()⟩ := by
  obtain ⟨n, room, compared⟩ := ofDocuments_eq limit room hs ht
  rw [compared] at ended
  obtain ⟨enough, -, course, -⟩ := ofRoots_between s t limit (Memo.sound_empty room)
  obtain ⟨completed, rfl⟩ := changes_eq_ok_iff.mp ended
  refine ⟨enough, fun levels h => ?_⟩
  rw [(Course.precedes_of_le _ h _).2 () (by rw [course completed]), course completed]

/-- Presentation does not matter. If two documents are put in other words, the one is a schema
exactly if it was one before, and so is the other one. Whenever the comparisons before and after
both come to their ends, they report the same changes in the same order, whatever is remembered in
each of them; only the keys of constants may stand in another order. -/
theorem restated_same_changes (limit : DepthLimit) {capacity capacity' : Int}
    (room : 1 ≤ capacity) (room' : 1 ≤ capacity') {old old' new new' : Json}
    (distinctOld : old.Throughout Json.DistinctKeys)
    (distinctOld' : old'.Throughout Json.DistinctKeys)
    (distinctNew : new.Throughout Json.DistinctKeys)
    (distinctNew' : new'.Throughout Json.DistinctKeys)
    (restatedOld : Schema.RestatedRoot old old') (restatedNew : Schema.RestatedRoot new new') :
    ((∃ s, Schema.ofDocument old = .ok s) ↔ ∃ s, Schema.ofDocument old' = .ok s) ∧
    ((∃ t, Schema.ofDocument new = .ok t) ↔ ∃ t, Schema.ofDocument new' = .ok t) ∧
    ∀ changes changes', (ofDocuments limit capacity old new).changes = .ok changes →
      (ofDocuments limit capacity' old' new').changes = .ok changes' →
        List.Forall₂ Change.Same changes changes' := by
  refine ⟨isOk_restated restatedOld distinctOld distinctOld',
    isOk_restated restatedNew distinctNew distinctNew', fun changes changes' ended ended' => ?_⟩
  obtain ⟨s, t, hs, ht⟩ := documents_of_changes ended
  obtain ⟨s', hs', sameOld, refsOld⟩ :=
    Schema.ofDocument_restated restatedOld distinctOld distinctOld' hs
  obtain ⟨t', ht', sameNew, refsNew⟩ :=
    Schema.ofDocument_restated restatedNew distinctNew distinctNew' ht
  obtain ⟨enough, course⟩ := course_of_changes room hs ht ended
  obtain ⟨enough', course'⟩ := course_of_changes room' hs' ht' ended'
  have setting : (Setting.ofRoots s t limit.value).Same (Setting.ofRoots s' t' limit.value) :=
    ⟨refsOld, refsNew, rfl, rfl⟩
  have parallel := Course.within_parallel setting (max enough enough')
    (v := rootVisit s t) (w := rootVisit s' t') ⟨rfl, sameOld, sameNew, rfl⟩
  rw [course _ (Nat.le_max_left _ _), course' _ (Nat.le_max_right _ _)] at parallel
  exact parallel.emitted

/-! ### An example -/

/-- A text that may be missing, described by a definition, and a constant. -/
def profile : Json :=
  .obj [
    ("properties", .obj [
      ("name", .obj [("$ref", .str "#/definitions/Text")]),
      ("unit", .obj [("const", .arr [.obj [("scale", .num (.int 1)), ("si", .bool true)]])])]),
    ("required", .arr [.str "unit", .str "name"]),
    ("definitions", .obj [
      ("Text", .obj [("anyOf", .arr [
        .obj [("type", .str "string"), ("minLength", .num (.int 1))],
        .obj [("type", .str "null")]])])])]

/-- The same in other words: nothing stands where it stood, a required name is repeated, and the
definition and one of its branches have got a title. -/
def profileRestated : Json :=
  .obj [
    ("definitions", .obj [
      ("Text", .obj [("title", .str "text"), ("anyOf", .arr [
        .obj [("minLength", .num (.int 1)), ("title", .str "given"), ("type", .str "string")],
        .obj [("type", .str "null")]])])]),
    ("required", .arr [.str "name", .str "unit", .str "name"]),
    ("properties", .obj [
      ("unit", .obj [("const", .arr [.obj [("si", .bool true), ("scale", .num (.int 1))]])]),
      ("name", .obj [("$ref", .str "#/definitions/Text")])])]

/-- A later version: the unit has changed, and it is no longer required. -/
def profileLater : Json :=
  .obj [
    ("properties", .obj [
      ("name", .obj [("anyOf", .arr [
        .obj [("type", .str "integer")], .obj [("type", .str "string")]])]),
      ("unit", .obj [("const", .arr [.obj [("scale", .num (.int 2)), ("si", .bool true)]])])]),
    ("required", .arr [.str "name"])]

/-- The later version in other words. -/
def profileLaterRestated : Json :=
  .obj [
    ("title", .str "profile"),
    ("required", .arr [.str "name", .str "name"]),
    ("properties", .obj [
      ("unit", .obj [("const", .arr [.obj [("si", .bool true), ("scale", .num (.int 2))]])]),
      ("name", .obj [("anyOf", .arr [
        .obj [("type", .str "integer")],
        .obj [("definitions", .null), ("type", .str "string")]])])])]

section

open Schema

theorem properties_restated {a a' b b' : Json} (name : Restated a a') (unit : Restated b b') :
    SaysSame Restated "properties" (.obj [("name", a), ("unit", b)])
      (.obj [("unit", b'), ("name", a')]) := by
  have paired : Fields.Aligned (fun _ => Restated) [("name", a), ("unit", b)]
      [("name", a'), ("unit", b')] := .cons ⟨rfl, name⟩ (.cons ⟨rfl, unit⟩ .nil)
  exact .properties_perm (by simp [Fields.keys]) paired (.swap _ _ _)

theorem definitions_restated {a a' : Json} (text : Restated a a') :
    SaysSame Restated "definitions" (.obj [("Text", a)]) (.obj [("Text", a')]) :=
  .definitions (by decide) (.cons ⟨rfl, text⟩ .nil)

theorem unit_restated (scale : Int) :
    Restated
      (.obj [("const", .arr [.obj [("scale", .num (.int scale)), ("si", .bool true)]])])
      (.obj [("const", .arr [.obj [("si", .bool true), ("scale", .num (.int scale))]])]) := by
  have unit : (Json.obj [("scale", .num (.int scale)), ("si", .bool true)]).Rekeyed
      (.obj [("si", .bool true), ("scale", .num (.int scale))]) :=
    .perm (by simp [Json.DistinctKeys, Fields.keys]) (.swap _ _ _)
  have const : SaysSame Restated "const" _ _ := .const rfl (.arr (.cons unit .nil))
  exact .intro (.object (by simpa [readKeywords, Fields.lookup_cons] using const))

/-- Definitions are read at the root only. -/
theorem name_restated :
    Restated
      (.obj [("anyOf", .arr [.obj [("type", .str "integer")], .obj [("type", .str "string")]])])
      (.obj [("anyOf", .arr [.obj [("type", .str "integer")],
        .obj [("definitions", .null), ("type", .str "string")]])]) := by
  have type : SaysSame Restated "type" (.str "string") (.str "string") := .same _
  have text : Restated (.obj [("type", .str "string")])
      (.obj [("definitions", .null), ("type", .str "string")]) :=
    .intro (.object (by simpa [readKeywords, Fields.lookup_cons] using type))
  have anyOf : SaysSame Restated "anyOf" _ _ :=
    .list (by decide) (.cons (.refl (.obj [("type", .str "integer")])) (.cons text .nil))
  exact .intro (.object (by simpa [readKeywords, Fields.lookup_cons] using anyOf))

theorem text_restated :
    Restated
      (.obj [("anyOf", .arr [
        .obj [("type", .str "string"), ("minLength", .num (.int 1))],
        .obj [("type", .str "null")]])])
      (.obj [("title", .str "text"), ("anyOf", .arr [
        .obj [("minLength", .num (.int 1)), ("title", .str "given"), ("type", .str "string")],
        .obj [("type", .str "null")]])]) := by
  have given : Restated (.obj [("type", .str "string"), ("minLength", .num (.int 1))])
      (.obj [("minLength", .num (.int 1)), ("title", .str "given"), ("type", .str "string")]) := by
    have type : SaysSame Restated "type" (.str "string") (.str "string") := .same _
    have minLength : SaysSame Restated "minLength" (.num (.int 1)) (.num (.int 1)) := .same _
    exact .intro (.object (by simpa [readKeywords, Fields.lookup_cons] using ⟨type, minLength⟩))
  have anyOf : SaysSame Restated "anyOf" _ _ :=
    .list (by decide) (.cons given (.cons (.refl (.obj [("type", .str "null")])) .nil))
  exact .intro (.object (by simpa [readKeywords, Fields.lookup_cons] using anyOf))

theorem profile_restated : RestatedRoot profile profileRestated := by
  have properties := properties_restated (.refl (.obj [("$ref", .str "#/definitions/Text")]))
    (unit_restated 1)
  have required : SaysSame Restated "required" (.arr [.str "unit", .str "name"])
      (.arr [.str "name", .str "unit", .str "name"]) := .required rfl (by intro z; simp; tauto)
  have definitions := definitions_restated text_restated
  exact .object (by
    simpa [rootKeywords, readKeywords, Fields.lookup_cons] using
      ⟨properties, required, definitions⟩)

theorem profileLater_restated : RestatedRoot profileLater profileLaterRestated := by
  have properties := properties_restated name_restated (unit_restated 2)
  have required : SaysSame Restated "required" (.arr [.str "name"])
      (.arr [.str "name", .str "name"]) := .required rfl (by simp)
  exact .object (by
    simpa [rootKeywords, readKeywords, Fields.lookup_cons] using ⟨properties, required⟩)

theorem distinct_profiles :
    profile.Throughout Json.DistinctKeys ∧ profileRestated.Throughout Json.DistinctKeys ∧
      profileLater.Throughout Json.DistinctKeys ∧
      profileLaterRestated.Throughout Json.DistinctKeys := by
  simp [profile, profileRestated, profileLater, profileLaterRestated, Json.DistinctKeys,
    Fields.keys]

end

/-- The constant has changed, a name is no longer required, and an aligned text has lost its least
length. -/
theorem restated_same_changes_profiles :
    (1 : Int) ≤ 1 ∧ (1 : Int) ≤ 5 ∧
    profile.Throughout Json.DistinctKeys ∧ profileRestated.Throughout Json.DistinctKeys ∧
    profileLater.Throughout Json.DistinctKeys ∧
    profileLaterRestated.Throughout Json.DistinctKeys ∧
    Schema.RestatedRoot profile profileRestated ∧
    Schema.RestatedRoot profileLater profileLaterRestated ∧
    ∃ changes changes',
      (ofDocuments .standard 1 profile profileLater).changes = .ok changes ∧
      (ofDocuments .standard 5 profileRestated profileLaterRestated).changes = .ok changes' ∧
      changes.length = 6 ∧ List.Forall₂ Change.Same changes changes' := by
  obtain ⟨distinctOld, distinctOld', distinctNew, distinctNew'⟩ := distinct_profiles
  obtain ⟨-, -, same⟩ := restated_same_changes .standard (Int.le_refl 1)
    (by decide : (1 : Int) ≤ 5) distinctOld distinctOld' distinctNew distinctNew' profile_restated
    profileLater_restated
  have completed :
      (ofDocuments .standard 1 profile profileLater).changes.toOption.isSome = true := by
    decide +kernel
  have completed' :
      (ofDocuments .standard 5 profileRestated
        profileLaterRestated).changes.toOption.isSome = true := by
    decide +kernel
  have six : (ofDocuments .standard 1 profile profileLater).reported.length = 6 := by
    decide +kernel
  obtain ⟨changes, ended⟩ := exists_ok_of_isSome completed
  obtain ⟨changes', ended'⟩ := exists_ok_of_isSome completed'
  obtain ⟨-, reported⟩ := changes_eq_ok_iff.mp ended
  exact ⟨Int.le_refl 1, by decide, distinctOld, distinctOld', distinctNew, distinctNew',
    profile_restated, profileLater_restated, changes, changes', ended, ended', reported ▸ six,
    same changes changes' ended ended'⟩

end Comparison

end SchemaDrift
