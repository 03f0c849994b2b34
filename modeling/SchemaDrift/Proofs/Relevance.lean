import SchemaDrift.Proofs.Course
import SchemaDrift.Proofs.Schema.Rewritten

/-!
# Schemas without references

The comparison of two schemas without references does not depend on the roots: there is nothing to
look up in them.

* `Schema.Unreferring` says that a schema has no reference anywhere.
* `Course.unreferring_of_go`: whatever is visited below a pair without references has none either.
* `Course.within_of_unreferring` is the main statement.
-/

namespace SchemaDrift

namespace Schema

/-- A schema has no reference, nor has any schema in it. -/
def Unreferring (s : Schema) : Prop := s.Throughout fun u => u.reference = none

namespace Unreferring

variable {s : Schema}

theorem here (h : s.Unreferring) : s.reference = none := Throughout.here h

theorem child (h : s.Unreferring) {u : Schema} (hu : Child u s) : u.Unreferring :=
  Throughout.child h hu

theorem of_children (here : s.reference = none) (h : ∀ u, Child u s → u.Unreferring) :
    s.Unreferring := throughout_iff.mpr ⟨here, h⟩

theorem everything : everything.Unreferring :=
  of_children rfl fun _ h => absurd h not_child_everything

theorem nothing : nothing.Unreferring :=
  of_children rfl fun _ hu => eq_everything_of_child_nothing hu ▸ everything

theorem split (h : s.Unreferring) : s.split.Unreferring := by
  refine Throughout.split h ?_ fun k => by cases k <;> rfl
  unfold Schema.split split?
  split
  · rfl
  · exact h.here

theorem ofConst (x : Json) : (ofConst x).Unreferring :=
  throughout_ofConst (fun x => by cases x <;> rfl) x

theorem unfoldConst (h : s.Unreferring) : s.unfoldConst.Unreferring := by
  refine Throughout.unfoldConst h ?_ fun x _ => ofConst x
  unfold Schema.unfoldConst
  split <;> exact h.here

theorem fillUp {ss : List Schema} (h : ∀ s ∈ ss, s.Unreferring) (length : Nat) :
    ∀ s ∈ Comparing.fillUp length ss, s.Unreferring := by
  intro s hs
  rcases List.mem_append.mp hs with hs | hs
  · exact h s hs
  · rw [List.eq_of_mem_replicate hs]
    exact nothing

end Unreferring

end Schema

/-! ## What the tasks of a pair go on with -/

namespace Items

variable {σ : Type}

/-- Whether there is a rule for each position. -/
def isTuple : Items σ → Bool
  | .every _ => false
  | .positions _ => true

/-- The rule that the item at a position falls under, if there is one. -/
def at? : Items σ → Nat → Option σ
  | .every rule, _ => some rule
  | .positions rules, i => rules[i]?

end Items

namespace Task

open Schema

theorem descend_of_positionTasks {pairs : List (Schema × Schema)} {index : Nat} {step : Step}
    {u w : Schema} (h : .descend step u w ∈ positionTasks index pairs) :
    ∃ k, step = .position (index + k) ∧ pairs[k]? = some (u, w) := by
  induction pairs generalizing index with
  | nil => exact nomatch h
  | cons p rest ih =>
    rw [positionTasks] at h
    rcases List.mem_cons.mp h with same | h
    · injection same with step left right
      subst left right
      exact ⟨0, step, rfl⟩
    · obtain ⟨k, step, found⟩ := ih h
      exact ⟨k + 1, by rw [step, Nat.add_assoc, Nat.add_comm 1 k], found⟩

/-- The pairs below a pair that stand under names are those under the names of both sides. -/
theorem descend_of_propertyTasks {s t u w : Schema} {step : Step}
    (h : .descend step u w ∈ propertyTasks s t) :
    ∃ name, step = .property name ∧ s.properties.lookup name = some u ∧
      t.properties.lookup name = some w := by
  unfold propertyTasks at h
  rcases List.mem_append.mp h with h | h
  · rcases List.mem_append.mp h with h | h
    all_goals
      obtain ⟨name, -, made⟩ := List.mem_map.mp h
      exact nomatch made
  · obtain ⟨name, -, found⟩ := List.mem_filterMap.mp h
    split at found
    · next a b hs ht =>
      injection Option.some.inj found with step left right
      subst left right
      exact ⟨name, step.symm, hs, ht⟩
    · exact nomatch found

theorem children_of_propertyTasks {s t u w : Schema} {step : Step}
    (h : .descend step u w ∈ propertyTasks s t) : Child u s ∧ Child w t := by
  obtain ⟨name, -, hs, ht⟩ := descend_of_propertyTasks h
  exact ⟨.property (Fields.mem_of_lookup hs), .property (Fields.mem_of_lookup ht)⟩

/-- The pair below a pair that stands for further properties is that of both sides. -/
theorem descend_of_additionalTasks {s t u w : Schema} {step : Step}
    (h : .descend step u w ∈ additionalTasks s t) :
    step = .additional ∧ s.additional = some u ∧ t.additional = some w := by
  unfold additionalTasks at h
  split at h
  · next a b hs ht =>
    split at h
    · exact nomatch h
    · injection List.mem_singleton.mp h with step left right
      subst left right
      exact ⟨step, hs, ht⟩
  · exact nomatch h

theorem children_of_additionalTasks {s t u w : Schema} {step : Step}
    (h : .descend step u w ∈ additionalTasks s t) : Child u s ∧ Child w t := by
  obtain ⟨-, hs, ht⟩ := descend_of_additionalTasks h
  exact ⟨.additional hs, .additional ht⟩

/-- The pairs below a pair that stand for items are the one for every item, if neither side is a
tuple, and otherwise those at the positions that every tuple has. -/
theorem descend_of_itemTasks {s t u w : Schema} {step : Step}
    (h : .descend step u w ∈ itemTasks s t) :
    (step = .items ∧ s.items = some (.every u) ∧ t.items = some (.every w)) ∨
      ∃ i xs ys, step = .position i ∧ s.items = some xs ∧ t.items = some ys ∧
        (xs.isTuple = true ∨ ys.isTuple = true) ∧ xs.at? i = some u ∧ ys.at? i = some w := by
  unfold itemTasks at h
  split at h
  · next a b hs ht =>
    injection List.mem_singleton.mp h with step left right
    subst left right
    exact .inl ⟨step, hs, ht⟩
  · next a ts hs ht =>
    rcases List.mem_cons.mp h with same | h
    · exact nomatch same
    · obtain ⟨k, step, found⟩ := descend_of_positionTasks h
      rw [List.getElem?_map, Option.map_eq_some_iff] at found
      obtain ⟨b, hb, same⟩ := found
      obtain ⟨rfl, rfl⟩ := Prod.mk.inj same
      exact .inr ⟨k, _, _, Nat.zero_add k ▸ step, hs, ht, .inr rfl, rfl, hb⟩
  · next ss b hs ht =>
    rcases List.mem_cons.mp h with same | h
    · exact nomatch same
    · obtain ⟨k, step, found⟩ := descend_of_positionTasks h
      rw [List.getElem?_map, Option.map_eq_some_iff] at found
      obtain ⟨a, ha, same⟩ := found
      obtain ⟨rfl, rfl⟩ := Prod.mk.inj same
      exact .inr ⟨k, _, _, Nat.zero_add k ▸ step, hs, ht, .inl rfl, ha, rfl⟩
  · next ss ts hs ht =>
    rcases List.mem_append.mp h with h | h
    · split at h
      · exact nomatch h
      · exact nomatch List.mem_singleton.mp h
    · obtain ⟨k, step, found⟩ := descend_of_positionTasks h
      obtain ⟨left, right⟩ := List.getElem?_zip_eq_some.mp found
      exact .inr ⟨k, _, _, Nat.zero_add k ▸ step, hs, ht, .inl rfl, left, right⟩
  · exact nomatch h

theorem child_of_at? {s u : Schema} {xs : Items Schema} {i : Nat} (hs : s.items = some xs)
    (h : xs.at? i = some u) : Child u s := by
  cases xs with
  | every rule =>
    obtain rfl := Option.some.inj h
    exact .every hs
  | positions rules => exact .position hs (List.mem_of_getElem? h)

theorem children_of_itemTasks {s t u w : Schema} {step : Step}
    (h : .descend step u w ∈ itemTasks s t) : Child u s ∧ Child w t := by
  rcases descend_of_itemTasks h with ⟨-, hs, ht⟩ | ⟨i, xs, ys, -, hs, ht, -, left, right⟩
  · exact ⟨.every hs, .every ht⟩
  · exact ⟨child_of_at? hs left, child_of_at? ht right⟩

/-- Among reports there is nothing to go on with. -/
theorem descend_notMem_reports {es : List Edit} {u w : Schema} {step : Step} :
    Task.descend step u w ∉ es.map .report := by
  intro h
  obtain ⟨e, -, made⟩ := List.mem_map.mp h
  exact nomatch made

/-- The pairs below a pair, beside its branches, stand under names, for further properties or for
items. -/
theorem descend_of_tasks {aligned split : Bool} {s t u w : Schema} {step : Step}
    (h : .descend step u w ∈ Comparing.tasks aligned split s t) :
    .descend step u w ∈ propertyTasks s.unfoldConst t.unfoldConst ∨
      .descend step u w ∈ additionalTasks s.unfoldConst t.unfoldConst ∨
      .descend step u w ∈ itemTasks s.unfoldConst t.unfoldConst := by
  unfold Comparing.tasks facetTasks at h
  rcases List.mem_append.mp h with h | h
  · rcases List.mem_append.mp h with h | h
    · split at h
      · exact nomatch h
      · exact absurd h descend_notMem_reports
    · exact absurd h descend_notMem_reports
  · split at h
    · exact nomatch h
    · simp only [List.mem_append, descend_notMem_reports, or_false] at h
      exact or_assoc.mp h

/-- Below a pair there are only pairs of schemas that stand in the two. -/
theorem children_of_tasks {aligned split : Bool} {s t u w : Schema} {step : Step}
    (h : .descend step u w ∈ Comparing.tasks aligned split s t) :
    Child u s.unfoldConst ∧ Child w t.unfoldConst := by
  rcases descend_of_tasks h with h | h | h
  · exact children_of_propertyTasks h
  · exact children_of_additionalTasks h
  · exact children_of_itemTasks h

end Task

namespace Course

/-! ## Courses of pairs without references -/

/-- Neither side of a visit has a reference. -/
def Unreferring (v : Visit) : Prop := v.old.Unreferring ∧ v.new.Unreferring

theorem oldOf_of_unreferring {setting : Setting} {v : Visit} (h : v.old.Unreferring) :
    oldOf setting v = v.old :=
  References.follow_of_no_reference setting.old h.here

theorem newOf_of_unreferring {setting : Setting} {v : Visit} (h : v.new.Unreferring) :
    newOf setting v = v.new :=
  References.follow_of_no_reference setting.new h.here

theorem branches_unreferring {s t : Schema} (hs : s.Unreferring) (ht : t.Unreferring) :
    (∀ u ∈ (branches s t).1, u.Unreferring) ∧ ∀ u ∈ (branches s t).2, u.Unreferring := by
  unfold branches
  split
  · next ss ts left right =>
    exact ⟨Schema.Unreferring.fillUp (fun u hu => hs.child (.branch left hu)) _,
      Schema.Unreferring.fillUp (fun u hu => ht.child (.branch right hu)) _⟩
  · exact ⟨nofun, nofun⟩

variable {setting : Setting} {v : Visit}

theorem branchesOf_unreferring (setting : Setting) (h : Unreferring v) :
    (∀ u ∈ (branchesOf setting v).1, u.Unreferring) ∧
      ∀ u ∈ (branchesOf setting v).2, u.Unreferring := by
  unfold branchesOf
  rw [oldOf_of_unreferring h.1, newOf_of_unreferring h.2]
  exact branches_unreferring h.1.split h.2.split

/-- Whatever is visited below a pair without references has none either. -/
theorem unreferring_of_go (h : Unreferring v) {costs : List (List Nat)} {w : Visit}
    (hw : .go w ∈ jobs setting v costs) : Unreferring w := by
  rcases List.mem_append.mp hw with hw | hw
  · obtain ⟨x, hx, same⟩ := List.mem_map.mp hw
    obtain rfl := Job.go.inj same
    unfold branchVisits Comparing.branchVisits at hx
    obtain ⟨⟨s, j⟩, hs, made⟩ := List.mem_filterMap.mp hx
    obtain ⟨t, ht, rfl⟩ := Option.map_eq_some_iff.mp made
    obtain ⟨left, right⟩ := branchesOf_unreferring setting h
    exact ⟨left s (List.of_mem_zip hs).1, right t (List.mem_of_getElem? ht)⟩
  · obtain ⟨task, htask, made⟩ := List.mem_map.mp hw
    cases task with
    | report e => exact nomatch made
    | descend step s t =>
      obtain rfl := Job.go.inj made
      unfold tasksOf at htask
      rw [oldOf_of_unreferring h.1, newOf_of_unreferring h.2] at htask
      obtain ⟨left, right⟩ := Task.children_of_tasks htask
      exact ⟨h.1.split.unfoldConst.child left, h.2.split.unfoldConst.child right⟩

/-- The course of a pair without references is the same whatever the roots are. -/
theorem within_of_unreferring (old new : References) (levels : Nat) (h : Unreferring v) :
    within { setting with old, new } levels v = within setting levels v := by
  induction levels generalizing v with
  | zero => rfl
  | succ levels ih =>
    have branches : branchesOf { setting with old, new } v = branchesOf setting v := by
      unfold branchesOf
      rw [oldOf_of_unreferring h.1, newOf_of_unreferring h.2, oldOf_of_unreferring h.1,
        newOf_of_unreferring h.2]
    -- The roots are looked at where references are followed, and nowhere else.
    have jobs_eq (costs : List (List Nat)) :
        jobs { setting with old, new } v costs = jobs setting v costs := by
      unfold jobs branchVisits tasksOf isSplit
      rw [branches, oldOf_of_unreferring h.1, newOf_of_unreferring h.2, oldOf_of_unreferring h.1,
        newOf_of_unreferring h.2]
      rfl
    obtain ⟨left, right⟩ := branchesOf_unreferring setting h
    have priced : prices (price { setting with old, new } levels) (branchesOf setting v) =
        prices (price setting levels) (branchesOf setting v) := by
      refine Outcome.collect_congr fun s hs => Outcome.collect_congr fun t ht => ?_
      unfold price
      rw [ih ⟨left s hs, right t ht⟩]
    have each_eq (costs : List (List Nat)) :
        Outcome.each (Job.outcome (within { setting with old, new } levels))
            (jobs { setting with old, new } v costs) =
          .each (Job.outcome (within setting levels)) (jobs setting v costs) := by
      rw [jobs_eq]
      refine Outcome.each_congr fun job hjob => ?_
      cases job with
      | report c =>
        show (Outcome.emit c : Outcome Change Fault Unit) = .emit c
        rfl
      | go w => exact ih (unreferring_of_go h hjob)
    rw [within_succ, within_succ, branches, priced]
    simp only [each_eq]

end Course

end SchemaDrift
