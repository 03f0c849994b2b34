import SchemaDrift.Proofs.AlignedPairs

/-!
# Chains of descents

Every change is one of a pair that a chain of descents from the roots comes to, and its path is put
together from what the steps of the chain add to it.

* `Course.Descent` says which pairs are one step below a pair; each of them stands in both schemas.
* `Course.Chain` is a chain of such steps, and `Course.pathOf` is its path.
* `Course.chain_of_within` finds the chain of a change.
* `Course.Descent.unique`: a step leads to one pair only, unless it has no place of its own.
-/

namespace SchemaDrift.Course

open Schema

/-! ## One step -/

/-- A schema as its rules are compared: its references are followed, its kinds are split up and its
constant has become properties. -/
def opened (refs : References) (s : Schema) : Schema := (refs.follow s).schema.split.unfoldConst

/-- The branch of a pair at the place `i` on the left is aligned with the one at `j` on the right: a
solution for the prices of all branches says so. -/
def Aligned (setting : Setting) (s t : Schema) (i j : Nat) : Prop :=
  ∃ levels costs,
    (prices (price setting levels) (branchesOf setting ⟨"", s, t, false⟩)).result = .ok costs ∧
      (columns setting costs)[i]? = some j

/-- Two branches of a pair are aligned, and the one on the right has the place `j`. The shorter list
of branches has been filled up to the length of the other one. -/
inductive Partners (setting : Setting) (s t : Schema) (j : Nat) (u w : Schema) : Prop where
  | intro {olds news : List Schema} {i : Nat} :
      (setting.old.follow s).schema.split.anyOf = some olds →
      (setting.new.follow t).schema.split.anyOf = some news →
      j < max olds.length news.length → Aligned setting s t i j →
      (Comparing.fillUp (max olds.length news.length) olds)[i]? = some u →
      (Comparing.fillUp (max olds.length news.length) news)[j]? = some w →
      Partners setting s t j u w

/-- The pairs that are one step below a pair. -/
inductive Descent (setting : Setting) (s t : Schema) : Step → Schema → Schema → Prop where
  /-- A property that both sides declare. -/
  | property {name : String} {u w : Schema} :
      (opened setting.old s).properties.lookup name = some u →
      (opened setting.new t).properties.lookup name = some w →
      Descent setting s t (.property name) u w
  /-- A position that every side has which is a tuple, and one of them is. -/
  | position {i : Nat} {xs ys : Items Schema} {u w : Schema} :
      (opened setting.old s).items = some xs → (opened setting.new t).items = some ys →
      xs.isTuple = true ∨ ys.isTuple = true → xs.at? i = some u → ys.at? i = some w →
      Descent setting s t (.position i) u w
  /-- The items, if neither side is a tuple. -/
  | items {u w : Schema} :
      (opened setting.old s).items = some (.every u) →
      (opened setting.new t).items = some (.every w) → Descent setting s t .items u w
  /-- Further properties, if both sides say something about them. -/
  | additional {u w : Schema} :
      (opened setting.old s).additional = some u → (opened setting.new t).additional = some w →
      Descent setting s t .additional u w
  /-- A branch on the right that was there before the kinds were split up. -/
  | branch {j : Nat} {u w : Schema} :
      (setting.new.follow t).schema.split?.isSome = false → Partners setting s t j u w →
      Descent setting s t (.branch j) u w
  /-- A branch on the right that stands for a kind. -/
  | splitBranch {j : Nat} {u w : Schema} :
      (setting.new.follow t).schema.split?.isSome = true → Partners setting s t j u w →
      Descent setting s t .splitBranch u w

variable {setting : Setting}

theorem descent_of_tasksOf {v : Visit} {step : Step} {u w : Schema}
    (h : .descend step u w ∈ tasksOf setting v) : Descent setting v.old v.new step u w := by
  rcases Task.descend_of_tasks h with h | h | h
  · obtain ⟨name, rfl, left, right⟩ := Task.descend_of_propertyTasks h
    exact .property left right
  · obtain ⟨rfl, left, right⟩ := Task.descend_of_additionalTasks h
    exact .additional left right
  · rcases Task.descend_of_itemTasks h with
      ⟨rfl, left, right⟩ | ⟨i, xs, ys, rfl, left, right, tuple, found, found'⟩
    · exact .items left right
    · exact .position left right tuple found found'

theorem length_fillUp (length : Nat) (branches : List Schema) :
    (Comparing.fillUp length branches).length = max length branches.length := by
  rw [Comparing.fillUp, List.length_append, List.length_replicate]
  omega

/-- Branches that are filled up stand in schemas that both have branches. -/
theorem anyOf_of_branches {s t u w : Schema} {i j : Nat} (hu : (branches s t).1[i]? = some u)
    (hw : (branches s t).2[j]? = some w) :
    ∃ olds news, s.anyOf = some olds ∧ t.anyOf = some news ∧ j < max olds.length news.length ∧
      (Comparing.fillUp (max olds.length news.length) olds)[i]? = some u ∧
      (Comparing.fillUp (max olds.length news.length) news)[j]? = some w := by
  rcases hs : s.anyOf with _ | olds
  · simp [branches, hs] at hu
  rcases ht : t.anyOf with _ | news
  · simp [branches, hs, ht] at hu
  simp only [branches, hs, ht] at hu hw
  have bound := (List.getElem?_eq_some_iff.mp hw).1
  rw [length_fillUp, Nat.max_eq_left (Nat.le_max_right _ _)] at bound
  exact ⟨olds, news, rfl, rfl, bound, hu, hw⟩

theorem descent_of_branchVisits {v x : Visit} {levels : Nat} {costs : List (List Nat)}
    (priced : (prices (price setting levels) (branchesOf setting v)).result = .ok costs)
    (h : x ∈ branchVisits setting v costs) :
    ∃ step, x.path = v.path ++ step.suffix ∧ Descent setting v.old v.new step x.old x.new := by
  unfold branchVisits Comparing.branchVisits at h
  obtain ⟨⟨u, j⟩, hu, made⟩ := List.mem_filterMap.mp h
  obtain ⟨w, hw, rfl⟩ := Option.map_eq_some_iff.mp made
  obtain ⟨i, found⟩ := List.mem_iff_getElem?.mp hu
  obtain ⟨hi, hj⟩ := List.getElem?_zip_eq_some.mp found
  obtain ⟨olds, news, left, right, bound, left_branch, right_branch⟩ := anyOf_of_branches hi hw
  have partners : Partners setting v.old v.new j u w :=
    .intro left right bound ⟨levels, costs, priced, hj⟩ left_branch right_branch
  refine ⟨_, rfl, ?_⟩
  split
  · next made => exact .splitBranch made partners
  · next own => exact .branch (Bool.eq_false_of_not_eq_true own) partners

/-- Whatever is visited below a pair is one step below it. -/
theorem descent_of_go {v x : Visit} {levels : Nat} {costs : List (List Nat)}
    (priced : (prices (price setting levels) (branchesOf setting v)).result = .ok costs)
    (h : .go x ∈ jobs setting v costs) :
    ∃ step, x.path = v.path ++ step.suffix ∧ Descent setting v.old v.new step x.old x.new := by
  rcases List.mem_append.mp h with h | h
  · obtain ⟨y, hy, same⟩ := List.mem_map.mp h
    obtain rfl := Job.go.inj same
    exact descent_of_branchVisits priced hy
  · obtain ⟨task, htask, made⟩ := List.mem_map.mp h
    cases task with
    | report edit => exact nomatch made
    | descend step u w =>
      obtain rfl := Job.go.inj made
      exact ⟨step, rfl, descent_of_tasksOf htask⟩

/-! ## Chains -/

/-- A step of a chain and the pair that it leads to. -/
structure Link where
  step : Step
  old : Schema
  new : Schema

/-- A chain of steps from one pair down to another one. -/
inductive Chain (setting : Setting) : Schema → Schema → List Link → Schema → Schema → Prop where
  | nil (s t : Schema) : Chain setting s t [] s t
  | cons {s t u w : Schema} {link : Link} {links : List Link} :
      Descent setting s t link.step link.old link.new →
      Chain setting link.old link.new links u w → Chain setting s t (link :: links) u w

def pathOf : List Link → String
  | [] => ""
  | link :: links => link.step.suffix ++ pathOf links

def IsEdit (setting : Setting) (s t : Schema) (e : Edit) : Prop :=
  .report e ∈ tasksOf setting ⟨"", s, t, false⟩

theorem isEdit_of_report {v : Visit} {c : Change} {costs : List (List Nat)}
    (h : .report c ∈ jobs setting v costs) :
    c.path = v.path ∧ IsEdit setting v.old v.new c.edit := by
  rcases List.mem_append.mp h with h | h
  · obtain ⟨x, -, made⟩ := List.mem_map.mp h
    exact nomatch made
  · obtain ⟨task, htask, made⟩ := List.mem_map.mp h
    cases task with
    | descend step u w => exact nomatch made
    | report edit =>
      obtain rfl := Job.report.inj made
      refine ⟨rfl, ?_⟩
      obtain ⟨path, s, t, _ | _⟩ := v
      · exact htask
      · have alone : tasksOf setting ⟨"", s, t, false⟩ = _ :=
          tasksOf_alone setting ⟨path, s, t, true⟩
        show Task.report edit ∈ tasksOf setting ⟨"", s, t, false⟩
        rw [alone]
        exact List.mem_append_right _ htask

/-- A change that is reported for a pair is one of a pair that a chain leads to from there, and the
chain leads to its path. The induction is on the levels: a change is one of the pair itself, or it
is reported one level below, where the chain goes on. -/
theorem chain_of_within {levels : Nat} {v : Visit} {c : Change}
    (h : c ∈ (within setting levels v).emitted) :
    ∃ links s t, Chain setting v.old v.new links s t ∧ c.path = v.path ++ pathOf links ∧
      IsEdit setting s t c.edit := by
  induction levels generalizing v with
  | zero => exact absurd h List.not_mem_nil
  | succ levels ih =>
    rcases priced : (prices (price setting levels) (branchesOf setting v)).result with e | costs
    · rw [within_of_no_prices priced] at h
      exact absurd h List.not_mem_nil
    · rw [within_of_prices priced] at h
      obtain ⟨job, hjob, emitted⟩ := Outcome.mem_each h
      cases job with
      | report c' =>
        obtain rfl := List.mem_singleton.mp emitted
        obtain ⟨path, edit⟩ := isEdit_of_report hjob
        exact ⟨[], v.old, v.new, .nil _ _, by rw [path, pathOf, String.append_empty], edit⟩
      | go x =>
        obtain ⟨step, there, descent⟩ := descent_of_go priced hjob
        obtain ⟨links, s, t, chain, path, edit⟩ := ih emitted
        refine ⟨⟨step, x.old, x.new⟩ :: links, s, t, .cons descent chain, ?_, edit⟩
        rw [path, there, pathOf, String.append_assoc]

/-! ## Where a step leads -/

theorem prices_precedes (setting : Setting) {m n : Nat} (h : m ≤ n)
    (sides : List Schema × List Schema) :
    (prices (price setting m) sides).Precedes (prices (price setting n) sides) :=
  .collect fun s _ => .collect fun t _ => price_precedes setting h s t

/-- Prices are the same however many levels they are found out with. -/
theorem prices_unique {m n : Nat} {sides : List Schema × List Schema}
    {costs costs' : List (List Nat)} (h : (prices (price setting m) sides).result = .ok costs)
    (h' : (prices (price setting n) sides).result = .ok costs') : costs = costs' := by
  have later := (prices_precedes setting (Nat.le_max_left m n) sides).2 costs h
  have later' := (prices_precedes setting (Nat.le_max_right m n) sides).2 costs' h'
  rw [← later, later', h'] at h
  exact (Except.ok.inj h).symm

variable {s t u w u' w' : Schema}

/-- A branch on the right is aligned with one branch on the left. -/
theorem Aligned.unique (distinct : ∀ costs, (setting.align costs).Nodup) {i i' j : Nat}
    (h : Aligned setting s t i j) (h' : Aligned setting s t i' j) : i = i' := by
  obtain ⟨levels, costs, priced, found⟩ := h
  obtain ⟨levels', costs', priced', found'⟩ := h'
  -- The columns depend on the prices alone, and no column is chosen twice.
  obtain rfl := prices_unique priced priced'
  have bound := (List.getElem?_eq_some_iff.mp found).1
  exact (List.getElem?_inj bound (distinct _)).mp (found.trans found'.symm)

theorem Partners.unique (distinct : ∀ costs, (setting.align costs).Nodup) {j : Nat}
    (h : Partners setting s t j u w) (h' : Partners setting s t j u' w') : u = u' ∧ w = w' := by
  obtain ⟨olds, news, -, aligned, left, right⟩ := h
  obtain ⟨olds', news', -, aligned', left', right'⟩ := h'
  obtain rfl := Option.some.inj (olds.symm.trans olds')
  obtain rfl := Option.some.inj (news.symm.trans news')
  obtain rfl := aligned.unique distinct aligned'
  exact ⟨Option.some.inj (left.symm.trans left'), Option.some.inj (right.symm.trans right')⟩

/-- A step leads to one pair only, unless it has no place of its own. -/
theorem Descent.unique (distinct : ∀ costs, (setting.align costs).Nodup) {step : Step}
    (own : step ≠ .splitBranch) (h : Descent setting s t step u w)
    (h' : Descent setting s t step u' w') : u = u' ∧ w = w' := by
  cases h with
  | property left right =>
    cases h' with
    | property left' right' =>
      exact ⟨Option.some.inj (left.symm.trans left'), Option.some.inj (right.symm.trans right')⟩
  | position xs ys _ left right =>
    cases h' with
    | position xs' ys' _ left' right' =>
      obtain rfl := Option.some.inj (xs.symm.trans xs')
      obtain rfl := Option.some.inj (ys.symm.trans ys')
      exact ⟨Option.some.inj (left.symm.trans left'), Option.some.inj (right.symm.trans right')⟩
  | items left right =>
    cases h' with
    | items left' right' =>
      exact ⟨Items.every.inj (Option.some.inj (left.symm.trans left')),
        Items.every.inj (Option.some.inj (right.symm.trans right'))⟩
  | additional left right =>
    cases h' with
    | additional left' right' =>
      exact ⟨Option.some.inj (left.symm.trans left'), Option.some.inj (right.symm.trans right')⟩
  | branch _ partners =>
    cases h' with
    | branch _ partners' => exact partners.unique distinct partners'
  | splitBranch _ _ => exact absurd rfl own

/-- Two chains from one pair that take the same steps are the same, unless they come to a step
without a place of its own. -/
theorem Chain.unique (distinct : ∀ costs, (setting.align costs).Nodup) {links links' : List Link}
    (h : Chain setting s t links u w) (h' : Chain setting s t links' u' w')
    (own : ∀ link ∈ links, link.step ≠ .splitBranch)
    (same : links.map Link.step = links'.map Link.step) : links = links' := by
  induction h generalizing links' u' w' with
  | nil => exact (List.map_eq_nil_iff.mp same.symm).symm
  | @cons s t u w link links descent chain ih =>
    cases h' with
    | nil => exact absurd same (List.cons_ne_nil _ _)
    | @cons _ _ _ _ link' links' descent' chain' =>
      obtain ⟨step, old, new⟩ := link
      obtain ⟨step', old', new'⟩ := link'
      obtain ⟨rfl, rest⟩ := List.cons.inj same
      obtain ⟨rfl, rfl⟩ := descent.unique distinct (own _ List.mem_cons_self) descent'
      rw [ih chain' (fun link hlink => own link (List.mem_cons_of_mem _ hlink)) rest]

end SchemaDrift.Course
