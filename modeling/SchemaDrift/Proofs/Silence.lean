import Mathlib
import SchemaDrift.Proofs.Assignment
import SchemaDrift.Proofs.Course
import SchemaDrift.Proofs.Schema.Agreement

/-!
# Schemas that agree have nothing to report

* `Task.descends_of_agree`: all there is to do for a pair that agrees, beside its branches, is to
  go on with pairs that agree.
* `Course.aligned_free` and `Course.aligned_silent`: the branches of such a pair are aligned at no
  cost, and a pair of branches that costs nothing reports nothing.
* `Course.within_silent`: the course of a pair that agrees is silent, however deep it goes.
-/

namespace SchemaDrift

open Schema

namespace Task

/-! ## Tasks of pairs that agree -/

/-- A task that goes on with a pair that agrees. -/
def Descends (task : Task) : Prop := ∃ step s t, task = .descend step s t ∧ s.Agree t

theorem typeEdits_of_kinds {s t : Schema} (kinds : s.typing.kindSet = t.typing.kindSet) :
    typeEdits s t = [] := by
  have none_left (ks : List Kind) : (ks.filter fun k => !ks.contains k) = [] := by
    rw [List.filter_eq_nil_iff]
    intro k hk
    simp [hk]
  simp only [typeEdits, kinds, none_left, List.map_nil, List.append_nil]

theorem typeEdits_agree {s t : Schema} (h : s.Agree t) : typeEdits s t = [] :=
  typeEdits_of_kinds (typing_agree h).kindSet_eq

theorem constEdits_agree {s t : Schema} (h : s.Agree t) : constEdits s t = [] := by
  unfold constEdits
  rcases rel_cases h.unfold.const with ⟨hs, ht⟩ | ⟨x, y, hs, ht, same⟩
  · rw [hs, ht]
  · rw [hs, ht]
    exact if_pos same.equal

theorem valueEdits_agree {α : Type} {agrees : α → α → Bool} {added removed : α → Edit}
    {changed : α → α → Edit} {x y : Option α}
    (h : Option.Rel (fun a b => agrees a b = true) x y) :
    valueEdits agrees added removed changed x y = [] := by
  cases h with
  | some same => exact if_pos same
  | none => rfl

theorem valueEdits_self {α : Type} [BEq α] [ReflBEq α] {added removed : α → Edit}
    {changed : α → α → Edit} (x : Option α) :
    valueEdits (· == ·) added removed changed x x = [] := by
  cases x with
  | none => rfl
  | some a => exact valueEdits_agree (.some (beq_self_eq_true a))

theorem rel_of_boundsAlike {a b : Option Double} (h : boundsAlike a b = true) :
    Option.Rel (fun x y => (Number.double x).same (.double y) = true) a b := by
  cases a <;> cases b
  · exact .none
  · exact nomatch h
  · exact nomatch h
  · exact .some h

theorem boundsOf_agree {s t : Schema} (h : s.Agree t) :
    (boundsOf s).alike (boundsOf t) = true := by
  have m := h.unfold
  unfold boundsOf
  rcases rel_cases m.anyOf with ⟨hs, ht⟩ | ⟨ss, ts, hs, ht, us, paired, arranged⟩
  · rw [hs, ht]
    exact m.number
  · rw [hs, ht]
    have length : ss.length = ts.length := paired.length_eq.trans arranged.length_eq
    -- Only a single branch can lend its bounds.
    rcases ss with _ | ⟨a, _ | ⟨a', ss⟩⟩ <;> rcases ts with _ | ⟨b, _ | ⟨b', ts⟩⟩
    case cons.nil.cons.nil =>
      cases paired with
      | cons first rest =>
        cases rest
        obtain rfl := List.singleton_perm_singleton.mp arranged
        dsimp only
        rw [numberRules_isEmpty m.number]
        split
        · exact first.unfold.number
        · exact m.number
    all_goals first | exact m.number | simp at length

theorem rangeEdits_of_alike {s t : Schema} (bounds : (boundsOf s).alike (boundsOf t) = true) :
    rangeEdits s t = [] := by
  simp only [NumberRules.alike, Bool.and_eq_true] at bounds
  obtain ⟨⟨⟨minimum, maximum⟩, above⟩, below⟩ := bounds
  unfold rangeEdits
  rw [List.flatMap_eq_nil_iff]
  intro b _
  cases b with
  | minimum => exact valueEdits_agree (rel_of_boundsAlike minimum)
  | maximum => exact valueEdits_agree (rel_of_boundsAlike maximum)
  | exclusiveMinimum => exact valueEdits_agree (rel_of_boundsAlike above)
  | exclusiveMaximum => exact valueEdits_agree (rel_of_boundsAlike below)

theorem rangeEdits_agree {s t : Schema} (h : s.Agree t) : rangeEdits s t = [] :=
  rangeEdits_of_alike (boundsOf_agree h)

theorem textEdits_of_eq {s t : Schema} (h : s.text = t.text) : textEdits s t = [] := by
  unfold textEdits
  rw [h]
  simp only [valueEdits_self, List.append_nil]

theorem textEdits_agree {s t : Schema} (h : s.Agree t) : textEdits s t = [] :=
  textEdits_of_eq h.unfold.text

theorem without_self (names : List String) : Names.without names names = [] := by
  unfold Names.without
  rw [List.filter_eq_nil_iff]
  intro name hname
  simp [hname]

theorem requiredEdits_agree {s t : Schema} (h : s.Agree t) : requiredEdits s t = [] := by
  unfold requiredEdits
  rw [h.unfold.required, without_self]
  rfl

theorem mem_propertyNames {s : Schema} {name : String} :
    name ∈ propertyNames s ↔ (s.properties.lookup name).isSome := by
  rw [propertyNames, Names.mem_ofList, Fields.lookup_isSome_iff]

theorem without_propertyNames {s t : Schema}
    (h : ∀ name, (s.properties.lookup name).isSome → (t.properties.lookup name).isSome) :
    Names.without (propertyNames s) (propertyNames t) = [] := by
  unfold Names.without
  rw [List.filter_eq_nil_iff]
  intro name hname
  simp [mem_propertyNames.mpr (h name (mem_propertyNames.mp hname))]

theorem propertyTasks_agree {s t : Schema} (h : s.Agree t) {task : Task}
    (htask : task ∈ propertyTasks s t) : task.Descends := by
  have properties := h.unfold.properties
  have dropped := without_propertyNames (s := s) (t := t) fun name hname => by
    rw [← isSome_rel (properties name)]
    exact hname
  have declared := without_propertyNames (s := t) (t := s) fun name hname => by
    rw [isSome_rel (properties name)]
    exact hname
  unfold propertyTasks at htask
  simp only [dropped, declared, List.map_nil, List.nil_append, List.mem_filterMap] at htask
  obtain ⟨name, -, found⟩ := htask
  split at found
  · next u v hs ht =>
    have agreed := properties name
    rw [hs, ht] at agreed
    cases agreed with
    | some agreed => exact ⟨_, u, v, (Option.some.inj found).symm, agreed⟩
  · exact nomatch found

theorem additionalTasks_agree {s t : Schema} (h : s.Agree t) {task : Task}
    (htask : task ∈ additionalTasks s t) : task.Descends := by
  unfold additionalTasks at htask
  split at htask
  · next u v hs ht =>
    have agreed := h.unfold.additional
    rw [hs, ht] at agreed
    split at htask
    · exact nomatch htask
    · cases agreed with
      | some agreed => exact ⟨_, u, v, List.mem_singleton.mp htask, agreed⟩
  · exact nomatch htask

theorem positionTasks_agree {pairs : List (Schema × Schema)} {index : Nat}
    (h : ∀ p ∈ pairs, p.1.Agree p.2) {task : Task} (htask : task ∈ positionTasks index pairs) :
    task.Descends := by
  induction pairs generalizing index with
  | nil => exact nomatch htask
  | cons p rest ih =>
    rw [positionTasks] at htask
    rcases List.mem_cons.mp htask with rfl | htask
    · exact ⟨_, _, _, rfl, h p List.mem_cons_self⟩
    · exact ih (fun q hq => h q (List.mem_cons_of_mem p hq)) htask

theorem itemTasks_agree {s t : Schema} (h : s.Agree t) {task : Task}
    (htask : task ∈ itemTasks s t) : task.Descends := by
  unfold itemTasks at htask
  rcases rel_cases h.unfold.items with ⟨hs, ht⟩ | ⟨x, y, hs, ht, agreed⟩
  · rw [hs, ht] at htask
    exact nomatch htask
  · rw [hs, ht] at htask
    cases agreed with
    | every agreed => exact ⟨_, _, _, List.mem_singleton.mp htask, agreed⟩
    | positions agreed =>
      dsimp only at htask
      rw [if_pos agreed.length_eq, List.nil_append] at htask
      exact positionTasks_agree (fun p hp => List.forall₂_iff_zip.mp agreed |>.2 hp) htask

/-- All there is to do for a pair that agrees, beside its branches, is to go on with pairs that
agree. -/
theorem descends_of_agree {s t : Schema} (h : s.Agree t) {aligned split : Bool} {task : Task}
    (htask : task ∈ Comparing.tasks aligned split s t) : task.Descends := by
  have unfolded := unfoldConst_agree h
  simp only [Comparing.tasks, typeEdits_agree h, constEdits_agree unfolded, List.map_nil,
    ite_self, List.nil_append, facetTasks, rangeEdits_agree unfolded,
    requiredEdits_agree unfolded, textEdits_agree unfolded, List.append_nil] at htask
  split at htask
  · cases htask
  · rcases List.mem_append.mp htask with htask | htask
    · rcases List.mem_append.mp htask with htask | htask
      · exact propertyTasks_agree unfolded htask
      · exact additionalTasks_agree unfolded htask
    · exact itemTasks_agree unfolded htask

end Task

namespace Course

/-! ## Branches of pairs that agree -/

/-- Two branches that cost nothing alone report nothing when they are aligned, wherever they
stand. -/
theorem aligned_silent {setting : Setting} {levels : Nat} {s t : Schema}
    (free : (price setting levels s t).result = .ok 0) (path : String) :
    (within setting levels ⟨path, s, t, true⟩).emitted = [] :=
  List.eq_nil_of_length_eq_zero (Nat.add_eq_zero_iff.mp (length_aligned free path)).1

theorem getElem?_forall₂ {α β : Type} {P : α → β → Prop} {xs : List α} {ys : List β}
    (h : List.Forall₂ P xs ys) {j : Nat} {x : α} (hx : xs[j]? = some x) :
    ∃ y, ys[j]? = some y ∧ P x y := by
  induction h generalizing j with
  | nil => exact nomatch hx
  | cons first _ ih =>
    cases j with
    | zero =>
      obtain rfl := Option.some.inj hx
      exact ⟨_, rfl, first⟩
    | succ j => exact ih hx

theorem zip_forall₂ {α β γ : Type} {P : α → β → Prop} {xs : List α} {ys : List β}
    (h : List.Forall₂ P xs ys) {zs : List γ} {x : α} {z : γ} (hx : (x, z) ∈ xs.zip zs) :
    ∃ y, (y, z) ∈ ys.zip zs ∧ P x y := by
  induction h generalizing zs with
  | nil => exact nomatch hx
  | @cons _ b _ _ first _ ih =>
    cases zs with
    | nil => exact nomatch hx
    | cons w zs =>
      rcases List.mem_cons.mp hx with same | hx
      · obtain ⟨rfl, rfl⟩ := Prod.mk.inj same
        exact ⟨b, List.mem_cons_self, first⟩
      · obtain ⟨y, hy, hxy⟩ := ih hx
        exact ⟨y, List.mem_cons_of_mem _ hy, hxy⟩

/-- Branches on the left, one for each row of prices. -/
abbrev Priced (setting : Setting) (levels : Nat) (news : List Schema) (s : Schema)
    (row : List Nat) : Prop :=
  List.Forall₂ (fun t c => (price setting levels s t).result = .ok c) news row

def square (costs : List (List Nat)) : Assignment.Costs := costs.map fun row => row.map Int.ofNat

theorem square_nonneg (costs : List (List Nat)) : ∀ row ∈ square costs, ∀ c ∈ row, 0 ≤ c := by
  intro row hrow c hc
  obtain ⟨row', -, rfl⟩ := List.mem_map.mp hrow
  obtain ⟨n, -, rfl⟩ := List.mem_map.mp hc
  exact Int.natCast_nonneg n

theorem getD_square {row : List Nat} {j c : Nat} (h : row[j]? = some c) :
    (row.map Int.ofNat).getD j 0 = c := by
  rw [List.getD_eq_getElem?_getD, List.getElem?_map, h]
  rfl

/-- An assignment chooses an entry of the first row and goes on with the others. -/
theorem total_square_cons {row : List Nat} {costs : List (List Nat)} {columns : List Nat} {j c : Nat}
    (h : row[j]? = some c) :
    Assignment.total (square (row :: costs)) (j :: columns) =
      c + Assignment.total (square costs) columns := by
  show (List.map Int.ofNat row).getD j 0 + Assignment.total (square costs) columns = _
  rw [getD_square h]

theorem prices_eq_ok {setting : Setting} {levels : Nat} {sides : List Schema × List Schema}
    {costs : List (List Nat)} (h : (prices (price setting levels) sides).result = .ok costs) :
    List.Forall₂ (Priced setting levels sides.2) sides.1 costs :=
  (Outcome.collect_eq_ok h).imp fun _ _ row => Outcome.collect_eq_ok row

theorem branches_length (s t : Schema) : (branches s t).1.length = (branches s t).2.length := by
  unfold branches
  split
  · simp only [Comparing.fillUp, List.length_append, List.length_replicate]
    omega
  · rfl

theorem row_length {setting : Setting} {levels : Nat} {olds news : List Schema}
    {costs : List (List Nat)}
    (priced : List.Forall₂ (Priced setting levels news) olds costs) :
    ∀ row ∈ costs, row.length = news.length := by
  induction priced with
  | nil => exact nofun
  | cons first _ ih =>
    intro row hrow
    rcases List.mem_cons.mp hrow with rfl | hrow
    · exact first.length_eq.symm
    · exact ih row hrow

theorem square_isSquare {setting : Setting} {levels : Nat} {olds news : List Schema}
    {costs : List (List Nat)}
    (sized : olds.length = news.length)
    (priced : List.Forall₂ (Priced setting levels news) olds costs) :
    Assignment.isSquare (square costs) = true := by
  simp only [Assignment.isSquare, square, List.all_eq_true, List.mem_map, List.length_map, beq_iff_eq]
  rintro _ ⟨row, hrow, rfl⟩
  rw [List.length_map, row_length priced row hrow, ← sized, priced.length_eq]

/-- The columns that are chosen for a square of prices make up an assignment of least total. -/
theorem columns_least {setting : Setting} {levels : Nat}
    (best : Assignment.Optimal setting.align) {v : Visit} {costs : List (List Nat)}
    (found : (prices (price setting levels) (branchesOf setting v)).result = .ok costs) :
    Assignment.Least (square costs) (columns setting costs) :=
  best (square costs) (square_isSquare (branches_length _ _) (prices_eq_ok found))

/-- The columns of partners make up a free assignment. -/
theorem total_partners {setting : Setting} {levels : Nat} {news : List Schema}
    (known : ∀ s t, s.Agree t → ∀ c, (price setting levels s t).result = .ok c → c = 0)
    {olds us : List Schema} {costs : List (List Nat)} {columns : List Nat}
    (priced : List.Forall₂ (Priced setting levels news) olds costs)
    (paired : List.Forall₂ Agree olds us)
    (placed : List.Forall₂ (fun u (j : Nat) => news[j]? = some u) us columns) :
    Assignment.total (square costs) columns = 0 := by
  induction paired generalizing costs columns with
  | nil =>
    cases priced
    rfl
  | @cons s u _ _ agreed _ ih =>
    obtain _ | ⟨row, priced⟩ := priced
    obtain _ | ⟨place, placed⟩ := placed
    obtain ⟨c, entry, cost⟩ := getElem?_forall₂ row place
    rw [total_square_cons entry, known s u agreed c cost, ih priced placed]
    rfl

/-- If the branches of two schemas can be brought into agreement, only pairs that cost nothing are
aligned. -/
theorem aligned_free {setting : Setting} {levels : Nat} {olds news : List Schema}
    (known : ∀ s t, s.Agree t → ∀ c, (price setting levels s t).result = .ok c → c = 0)
    (h : BranchesMatch Agree olds news) {costs : List (List Nat)}
    (priced : List.Forall₂ (Priced setting levels news) olds costs) {s t : Schema} {j : Nat}
    (hs : (s, j) ∈ olds.zip (Assignment.solve (square costs))) (ht : news[j]? = some t) :
    (price setting levels s t).result = .ok 0 := by
  obtain ⟨us, paired, arranged⟩ := h
  have places : List.Forall₂ (fun u (j : Nat) => news[j]? = some u) news (List.range news.length) := by
    rw [List.forall₂_iff_get]
    exact ⟨List.length_range.symm, fun i h _ => by simp⟩
  -- The columns of the partners make up one assignment that costs nothing.
  obtain ⟨columns, placed, arranged⟩ := List.perm_comp_forall₂ arranged places
  have size : news.length = (square costs).length := by
    rw [square, List.length_map, ← priced.length_eq, paired.length_eq, placed.length_eq,
      arranged.length_eq, List.length_range]
  have total := total_partners known priced paired placed
  rw [size] at arranged
  have chosen := Assignment.solve_free (square_nonneg costs) arranged (Int.le_of_eq total)
  obtain ⟨row, hrow, row_priced⟩ := zip_forall₂ priced hs
  obtain ⟨c, entry, cost⟩ := getElem?_forall₂ row_priced ht
  have listed : (row.map Int.ofNat, j) ∈ (square costs).zip (Assignment.solve (square costs)) := by
    rw [square, List.zip_map_left]
    exact List.mem_map.mpr ⟨(row, j), hrow, rfl⟩
  have free := chosen _ listed
  rw [getD_square entry] at free
  obtain rfl : c = 0 := Int.ofNat.inj free
  exact cost

theorem fillUp_length (branches : List Schema) :
    Comparing.fillUp branches.length branches = branches := by
  rw [Comparing.fillUp, Nat.sub_self, List.replicate_zero, List.append_nil]

theorem branches_agree {s t : Schema} (h : s.Agree t) :
    BranchesMatch Agree (branches s t).1 (branches s t).2 := by
  unfold branches
  rcases rel_cases h.unfold.anyOf with ⟨hs, ht⟩ | ⟨ss, ts, hs, ht, us, paired, arranged⟩
  · rw [hs, ht]
    exact ⟨[], .nil, .nil⟩
  · rw [hs, ht]
    have length : ss.length = ts.length := paired.length_eq.trans arranged.length_eq
    dsimp only
    rw [length, Nat.max_self, fillUp_length, ← length, fillUp_length]
    exact ⟨us, paired, arranged⟩

/-! ## Courses of pairs that agree -/

theorem branchVisit_silent {setting : Setting} (solves : setting.align = Assignment.solve)
    {levels : Nat} (known : ∀ s t, s.Agree t → ∀ c, (price setting levels s t).result = .ok c → c = 0)
    {v : Visit} (h : (oldOf setting v).split.Agree (newOf setting v).split)
    {costs : List (List Nat)}
    (priced : (prices (price setting levels) (branchesOf setting v)).result = .ok costs) {w : Visit}
    (hw : w ∈ branchVisits setting v costs) : (within setting levels w).emitted = [] := by
  unfold branchVisits Comparing.branchVisits columns at hw
  rw [solves, List.mem_filterMap] at hw
  obtain ⟨⟨s, j⟩, hs, made⟩ := hw
  obtain ⟨t, ht, rfl⟩ := Option.map_eq_some_iff.mp made
  exact aligned_silent (aligned_free known (branches_agree h) (prices_eq_ok priced) hs ht) _

/-- A pair that agrees reports nothing, however deep the comparison goes. -/
theorem within_silent {setting : Setting} (solves : setting.align = Assignment.solve)
    (refs : setting.old.Agree setting.new) (levels : Nat) {v : Visit} (h : v.old.Agree v.new) :
    (within setting levels v).emitted = [] := by
  induction levels generalizing v with
  | zero => rfl
  | succ levels ih =>
    -- One level below, pairs that agree are silent, so their branches cost nothing.
    have known (s t : Schema) (hst : s.Agree t) (c : Nat)
        (found : (price setting levels s t).result = .ok c) : c = 0 := by
      rw [(Outcome.tally_eq_ok found).2, ih (v := ⟨"", s, t, false⟩) hst]
      rfl
    have rewritten : (oldOf setting v).split.Agree (newOf setting v).split :=
      split_agree (References.follow_agree refs h)
    rcases priced : (prices (price setting levels) (branchesOf setting v)).result with e | costs
    · rw [within_of_no_prices priced]
      rfl
    · rw [within_of_prices priced]
      refine Outcome.each_silent fun job hjob => ?_
      rcases List.mem_append.mp hjob with hjob | hjob
      · obtain ⟨w, hw, rfl⟩ := List.mem_map.mp hjob
        exact branchVisit_silent solves known rewritten priced hw
      · obtain ⟨task, htask, rfl⟩ := List.mem_map.mp hjob
        obtain ⟨step, s, t, rfl, agreed⟩ := Task.descends_of_agree rewritten htask
        exact ih agreed

end Course

end SchemaDrift
