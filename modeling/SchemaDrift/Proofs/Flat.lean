import SchemaDrift.Proofs.Reflexivity
import SchemaDrift.Proofs.Schema.Splitting

/-!
# Schemas that hold no further schemas

Two schemas that hold no further schemas and are not split up are compared in one step: there is
nothing to align and nothing to go on with, so the comparison reports their edits and comes to its
end. If they have branches, these are all that there is beside the edits.

* `Schema.Shallow` singles out the schemas that hold no further schemas except for branches; they
  have no constant and no reference either. `Schema.Flat` excludes branches as well.
* `Schema.facetEdits` are the edits of the rules other than those on kinds, and `Facets` are these
  rules by themselves.
* `Course.within_flat` is what comparing two flat schemas comes to.
* `Comparison.ofRoots_of_within`: a comparison whose course comes to its end within the limit
  reports just that course.
-/

namespace SchemaDrift

theorem Task.boundValue_none (b : Bound) : boundValue .none b = none := by
  cases b <;> rfl

namespace Schema

/-- A schema whose rules are about kinds, numbers, strings and required names, or are branches or a
negation. -/
structure Shallow (s : Schema) : Prop where
  const : s.const = none
  properties : s.properties = []
  additional : s.additional = none
  items : s.items = none
  reference : s.reference = none

/-- A shallow schema without branches. -/
structure Flat (s : Schema) : Prop extends s.Shallow where
  anyOf : s.anyOf = none

/-- The edits of bounds, required names and rules on strings. -/
def facetEdits (s t : Schema) : List Edit :=
  Task.rangeEdits s t ++ Task.requiredEdits s t ++ Task.textEdits s t

theorem flat_nothing : nothing.Flat := ⟨⟨rfl, rfl, rfl, rfl, rfl⟩, rfl⟩

theorem shallow_choice (branches : List Schema) : (choice branches).Shallow :=
  ⟨rfl, rfl, rfl, rfl, rfl⟩

namespace Shallow

variable {s t : Schema}

theorem unfoldConst_eq (h : s.Shallow) : s.unfoldConst = s := by
  unfold unfoldConst
  rw [h.const]

theorem constEdits_eq_nil (hs : s.Shallow) (ht : t.Shallow) : Task.constEdits s t = [] := by
  unfold Task.constEdits
  rw [hs.const, ht.const]

theorem facetTasks_eq (hs : s.Shallow) (ht : t.Shallow) :
    Task.facetTasks s t = (facetEdits s t).map .report := by
  have properties : Task.propertyTasks s t = [] := by
    unfold Task.propertyTasks Task.propertyNames
    rw [hs.properties, ht.properties]
    rfl
  have additional : Task.additionalTasks s t = [] := by
    unfold Task.additionalTasks
    rw [hs.additional]
  have items : Task.itemTasks s t = [] := by
    unfold Task.itemTasks
    rw [hs.items]
  simp only [Task.facetTasks, facetEdits, properties, additional, items, List.nil_append,
    List.append_nil, List.map_append]

end Shallow

namespace Flat

variable {s : Schema}

theorem boundsOf_eq (h : s.Flat) : Task.boundsOf s = s.number := by
  unfold Task.boundsOf
  rw [h.anyOf]

/-- What concerns one kind is flat. -/
theorem project (h : s.Flat) (k : Kind) : (s.project k).Flat := by
  cases k with
  | object => exact ⟨⟨rfl, h.properties, h.additional, rfl, rfl⟩, rfl⟩
  | array => exact ⟨⟨rfl, rfl, rfl, h.items, rfl⟩, rfl⟩
  | _ => exact ⟨⟨rfl, rfl, rfl, rfl, rfl⟩, rfl⟩

end Flat

end Schema

/-- The rules on numbers, strings and required names. -/
structure Facets where
  number : NumberRules
  text : StringRules
  required : List String

namespace Facets

def none : Facets := ⟨.none, .none, []⟩

def schema (f : Facets) (ks : List Kind) : Schema :=
  { Schema.everything with
    kinds := some ks, number := f.number, text := f.text, required := f.required }

theorem schema_flat (f : Facets) (ks : List Kind) : (f.schema ks).Flat :=
  ⟨⟨rfl, rfl, rfl, rfl, rfl⟩, rfl⟩

end Facets

namespace Course

open Schema

variable {setting : Setting}

/-- A pair with no branches to align is its tasks, one after the other. -/
theorem within_of_branchless {v : Visit} (levels : Nat)
    (branchless : branchesOf setting v = ([], [])) :
    within setting (levels + 1) v =
      .each (Job.outcome (within setting levels)) ((tasksOf setting v).map (Job.ofTask v.path)) := by
  have priced : (prices (price setting levels) (branchesOf setting v)).result = .ok [] := by
    rw [branchless]
    rfl
  have visits : branchVisits setting v [] = [] := by
    unfold branchVisits
    rw [branchless]
    rfl
  rw [within_of_prices priced, jobs, visits, List.map_nil, List.nil_append]

/-- A pair with no branches to align and with no pairs below it is compared in one step. -/
theorem within_of_reports {v : Visit} {edits : List Edit} (levels : Nat)
    (branchless : branchesOf setting v = ([], []))
    (reports : tasksOf setting v = edits.map .report) :
    within setting (levels + 1) v = ⟨edits.map (Change.mk v.path), .ok ()⟩ := by
  have listed : (tasksOf setting v).map (Job.ofTask v.path) =
      (edits.map (Change.mk v.path)).map .report := by
    rw [reports, List.map_map, List.map_map]
    rfl
  rw [within_of_branchless levels branchless, listed, each_reports]

/-- The edits of a pair of shallow schemas. The kinds are left out if the pair is aligned. -/
def shallowEdits (aligned : Bool) (s t : Schema) : List Edit :=
  (if aligned then [] else Task.typeEdits s t) ++ facetEdits s t

variable {s t : Schema}

theorem oldOf_shallow (hs : s.Shallow) (path : String) (aligned : Bool) :
    oldOf setting ⟨path, s, t, aligned⟩ = s :=
  References.follow_of_no_reference setting.old hs.reference

theorem newOf_shallow (ht : t.Shallow) (path : String) (aligned : Bool) :
    newOf setting ⟨path, s, t, aligned⟩ = t :=
  References.follow_of_no_reference setting.new ht.reference

theorem branchesOf_shallow (hs : s.Shallow) (ht : t.Shallow) (whole : s.split? = none)
    (whole' : t.split? = none) (path : String) (aligned : Bool) :
    branchesOf setting ⟨path, s, t, aligned⟩ = branches s t := by
  rw [branchesOf, oldOf_shallow hs, newOf_shallow ht, split_eq_self whole, split_eq_self whole']

/-- Whatever there is to do for shallow schemas beside their branches is to report their edits. -/
theorem tasksOf_shallow (hs : s.Shallow) (ht : t.Shallow) (whole : s.split? = none)
    (whole' : t.split? = none) (path : String) (aligned : Bool) :
    tasksOf setting ⟨path, s, t, aligned⟩ = (shallowEdits aligned s t).map .report := by
  have unsplit : isSplit setting ⟨path, s, t, aligned⟩ = false := by
    rw [isSplit, oldOf_shallow hs, newOf_shallow ht, whole, whole']
    rfl
  unfold tasksOf Comparing.tasks
  rw [unsplit, oldOf_shallow hs, newOf_shallow ht, split_eq_self whole, split_eq_self whole',
    hs.unfoldConst_eq, ht.unfoldConst_eq]
  dsimp only
  rw [hs.constEdits_eq_nil ht, hs.facetTasks_eq ht]
  cases aligned with
  | true => rfl
  | false => simp [shallowEdits]

theorem branches_of_branchless (h : s.anyOf = none) : branches s t = ([], []) := by
  unfold branches
  rw [h]

/-- Comparing two flat schemas comes to reporting their edits. -/
theorem within_flat (hs : s.Flat) (ht : t.Flat) (whole : s.split? = none)
    (whole' : t.split? = none) (levels : Nat) (path : String) (aligned : Bool) :
    within setting (levels + 1) ⟨path, s, t, aligned⟩ =
      ⟨(shallowEdits aligned s t).map (Change.mk path), .ok ()⟩ := by
  have branchless : branchesOf setting ⟨path, s, t, aligned⟩ = ([], []) := by
    rw [branchesOf_shallow hs.toShallow ht.toShallow whole whole', branches_of_branchless hs.anyOf]
  exact within_of_reports levels branchless
    (tasksOf_shallow hs.toShallow ht.toShallow whole whole' path aligned)

end Course

namespace Comparison

/-- The levels of a comparison of roots: the roots and as many below them as the limit allows. -/
theorem levelsFrom_zero (old new : Schema) (limit : Nat) :
    (Setting.ofRoots old new limit).levelsFrom 0 = limit + 1 := by
  show ((limit : Int) + 1 - 0).toNat = limit + 1
  omega

/-- A comparison whose course comes to its end within the limit reports just that course. -/
theorem ofRoots_of_within {old new : Schema} {limit : DepthLimit} {capacity : Nat}
    (room : 1 ≤ capacity) {changes : List Change}
    (h : Course.within (Setting.ofRoots old new limit.value) (limit.value + 1)
      (rootVisit old new) = ⟨changes, .ok ()⟩) :
    (ofRoots limit (.empty capacity) old new).changes = .ok changes := by
  have sound : Course.HoldsPrices (Setting.ofRoots old new limit.value) (.empty capacity, []) :=
    Memo.sound_empty room
  obtain ⟨-, -, above, -⟩ :=
    Course.tracks_memoised rfl (limit.value + 1) (rootVisit old new) _ sound
  obtain ⟨reported, failed⟩ := ofRoots_eq old new limit (.empty capacity)
  rw [levelsFrom_zero] at reported failed
  -- What comes to its end without a memo comes to the same end with it.
  have same := (above.2 () (congrArg Outcome.result h)).trans h
  rw [same] at reported
  have completed : (ofRoots limit (.empty capacity) old new).fault = none := by
    rcases fault : (ofRoots limit (.empty capacity) old new).fault with _ | e
    · rfl
    · have ended := (failed e).mp fault
      rw [same] at ended
      exact nomatch ended
  unfold Comparison.changes
  rw [completed, reported]

end Comparison

end SchemaDrift
