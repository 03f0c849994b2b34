import Mathlib.Data.List.Zip
import SchemaDrift.Proofs.Branchless
import SchemaDrift.Proofs.Schema.Restated

/-!
# Exchanging the two sides

Where nothing is aligned, comparing the new document with the old one mirrors the comparison of the
old one with the new one: what was added is removed, old and new values change places, and both
comparisons fail together or not at all. Only the order of what is reported at one place differs,
since removals are reported before additions either way.

* `Edit.Mirrors` says what an edit looks like from the other side.
* `Reflects` relates the reports of two comparisons, whatever their order.
* `Task.typeEdits_reflect`, `Task.facetTasks_reflect` and their companions look at one rule from
  both sides, `Course.within_reflect` goes down the whole comparison.
* `Comparison.exchanged_reflects` is the statement about documents.
-/

namespace SchemaDrift

open Schema

/-! ## Mirrored edits -/

/-- The second edit is the first one seen from the other side. An edit of a property remembers
whether the schema on the left left further properties unrestricted, and an edit of a tuple the
length on the right; these are not the same from both sides. -/
inductive Edit.Mirrors : Edit → Edit → Prop where
  | typeAdd (k : Kind) : Mirrors (.typeAdd k) (.typeRemove k)
  | typeRemove (k : Kind) : Mirrors (.typeRemove k) (.typeAdd k)
  | constAdd (x : Json) : Mirrors (.constAdd x) (.constRemove x)
  | constRemove (x : Json) : Mirrors (.constRemove x) (.constAdd x)
  | propertyAdd (leftIsOpen rightIsOpen : Bool) (name : String) :
    Mirrors (.propertyAdd leftIsOpen name) (.propertyRemove rightIsOpen name)
  | propertyRemove (leftIsOpen rightIsOpen : Bool) (name : String) :
    Mirrors (.propertyRemove leftIsOpen name) (.propertyAdd rightIsOpen name)
  | rangeAdd (r : Range) : Mirrors (.rangeAdd r) (.rangeRemove r)
  | rangeRemove (r : Range) : Mirrors (.rangeRemove r) (.rangeAdd r)
  | rangeChange (q r : Range) : Mirrors (.rangeChange q r) (.rangeChange r q)
  | tupleToArray (n : Int) : Mirrors (.tupleToArray n) (.arrayToTuple n)
  | arrayToTuple (n : Int) : Mirrors (.arrayToTuple n) (.tupleToArray n)
  | tupleChange (m n : Int) : Mirrors (.tupleChange m) (.tupleChange n)
  | requiredAdd (name : String) : Mirrors (.requiredAdd name) (.requiredRemove name)
  | requiredRemove (name : String) : Mirrors (.requiredRemove name) (.requiredAdd name)
  | formatAdd (f : String) : Mirrors (.formatAdd f) (.formatRemove f)
  | formatRemove (f : String) : Mirrors (.formatRemove f) (.formatAdd f)
  | formatChange (f g : String) : Mirrors (.formatChange f g) (.formatChange g f)
  | patternAdd (p : String) : Mirrors (.patternAdd p) (.patternRemove p)
  | patternRemove (p : String) : Mirrors (.patternRemove p) (.patternAdd p)
  | patternChange (p q : String) : Mirrors (.patternChange p q) (.patternChange q p)
  | minLengthAdd (n : Int) : Mirrors (.minLengthAdd n) (.minLengthRemove n)
  | minLengthRemove (n : Int) : Mirrors (.minLengthRemove n) (.minLengthAdd n)
  | minLengthChange (m n : Int) : Mirrors (.minLengthChange m n) (.minLengthChange n m)
  | maxLengthAdd (n : Int) : Mirrors (.maxLengthAdd n) (.maxLengthRemove n)
  | maxLengthRemove (n : Int) : Mirrors (.maxLengthRemove n) (.maxLengthAdd n)
  | maxLengthChange (m n : Int) : Mirrors (.maxLengthChange m n) (.maxLengthChange n m)

/-- The second change is the first one seen from the other side, at the same place. -/
def Change.Mirrors (c d : Change) : Prop := c.path = d.path ∧ c.edit.Mirrors d.edit

/-! ## Reports in any order -/

/-- Each item of the first list has a partner of its own in the second one, and there is nothing
else in the second one. -/
def Reflects {α β : Type} (R : α → β → Prop) (xs : List α) (ys : List β) : Prop :=
  ∃ zs, List.Forall₂ R xs zs ∧ zs.Perm ys

namespace Reflects

variable {α β γ δ : Type} {R : α → β → Prop} {xs xs' : List α} {ys ys' : List β}

theorem of_forall₂ (h : List.Forall₂ R xs ys) : Reflects R xs ys := ⟨ys, h, .refl ys⟩

theorem nil : Reflects R [] [] := of_forall₂ .nil

theorem singleton {x : α} {y : β} (h : R x y) : Reflects R [x] [y] := of_forall₂ (.cons h .nil)

theorem append (h : Reflects R xs ys) (k : Reflects R xs' ys') :
    Reflects R (xs ++ xs') (ys ++ ys') := by
  obtain ⟨zs, paired, arranged⟩ := h
  obtain ⟨zs', paired', arranged'⟩ := k
  exact ⟨zs ++ zs', List.rel_append paired paired', arranged.append arranged'⟩

/-- What comes first from one side may come last from the other. -/
theorem append_swap (h : Reflects R xs ys) (k : Reflects R xs' ys') :
    Reflects R (xs ++ xs') (ys' ++ ys) := by
  obtain ⟨zs, paired, arranged⟩ := h.append k
  exact ⟨zs, paired, arranged.trans List.perm_append_comm⟩

theorem map {S : γ → δ → Prop} {f : α → γ} {g : β → δ} (step : ∀ x y, R x y → S (f x) (g y))
    (h : Reflects R xs ys) : Reflects S (xs.map f) (ys.map g) := by
  obtain ⟨zs, paired, arranged⟩ := h
  refine ⟨zs.map g, ?_, arranged.map g⟩
  rw [List.forall₂_map_left_iff, List.forall₂_map_right_iff]
  exact paired.imp step

/-- One list turned into two. -/
theorem of_map {S : γ → δ → Prop} {f : α → γ} {g : α → δ} (step : ∀ x, S (f x) (g x))
    (xs : List α) : Reflects S (xs.map f) (xs.map g) := by
  refine of_forall₂ ?_
  rw [List.forall₂_map_left_iff, List.forall₂_map_right_iff, List.forall₂_same]
  exact fun x _ => step x

theorem flatMap {f : γ → List α} {g : γ → List β} (step : ∀ x, Reflects R (f x) (g x))
    (us : List γ) : Reflects R (us.flatMap f) (us.flatMap g) := by
  induction us with
  | nil => exact nil
  | cons u us ih =>
    rw [List.flatMap_cons, List.flatMap_cons]
    exact (step u).append ih

end Reflects

/-! ## Mirrored tasks -/

namespace Task

variable {s t : Schema}

theorem typeEdits_reflect (s t : Schema) :
    Reflects Edit.Mirrors (typeEdits s t) (typeEdits t s) :=
  (Reflects.of_map .typeRemove _).append_swap (.of_map .typeAdd _)

theorem constEdits_reflect (hs : Option.Rel Json.Rekeyed s.const s.const)
    (ht : Option.Rel Json.Rekeyed t.const t.const) :
    Reflects Edit.Mirrors (constEdits s t) (constEdits t s) := by
  unfold constEdits
  rcases left : s.const with _ | x <;> rcases right : t.const with _ | y
  · exact .nil
  · exact .singleton (.constAdd y)
  · exact .singleton (.constRemove x)
  · dsimp only
    rw [Json.equal_comm (rel_self ht right) (rel_self hs left)]
    split
    · exact .nil
    · exact (Reflects.singleton (.constRemove x)).append_swap (.singleton (.constAdd y))

theorem valueEdits_reflect {α : Type} {agrees : α → α → Bool} {added removed : α → Edit}
    {changed : α → α → Edit} (comm : ∀ x y, agrees x y = agrees y x)
    (add : ∀ y, (added y).Mirrors (removed y)) (remove : ∀ x, (removed x).Mirrors (added x))
    (change : ∀ x y, (changed x y).Mirrors (changed y x)) (old new : Option α) :
    Reflects Edit.Mirrors (valueEdits agrees added removed changed old new)
      (valueEdits agrees added removed changed new old) := by
  rcases old with _ | x <;> rcases new with _ | y
  · exact .nil
  · exact .singleton (add y)
  · exact .singleton (remove x)
  · unfold valueEdits
    dsimp only
    rw [comm y x]
    split
    · exact .nil
    · exact .singleton (change x y)

theorem rangeEdits_reflect (s t : Schema) :
    Reflects Edit.Mirrors (rangeEdits s t) (rangeEdits t s) :=
  .flatMap (fun _ => valueEdits_reflect (fun _ _ => Number.same_comm _ _) (fun _ => .rangeAdd _)
    (fun _ => .rangeRemove _) (fun _ _ => .rangeChange _ _) _ _) _

theorem requiredEdits_reflect (s t : Schema) :
    Reflects Edit.Mirrors (requiredEdits s t) (requiredEdits t s) :=
  (Reflects.of_map .requiredRemove _).append_swap (.of_map .requiredAdd _)

theorem textEdits_reflect (s t : Schema) :
    Reflects Edit.Mirrors (textEdits s t) (textEdits t s) := by
  have text (x y : String) : (x == y) = (y == x) := Bool.beq_comm
  have length (m n : Int) : (m == n) = (n == m) := Bool.beq_comm
  exact (((valueEdits_reflect text .formatAdd .formatRemove .formatChange _ _).append
    (valueEdits_reflect text .patternAdd .patternRemove .patternChange _ _)).append
    (valueEdits_reflect length .minLengthAdd .minLengthRemove .minLengthChange _ _)).append
    (valueEdits_reflect length .maxLengthAdd .maxLengthRemove .maxLengthChange _ _)

/-- The second task goes on with the pair of the first one, seen from the other side. -/
inductive Turned : Task → Task → Prop where
  | descend (step : Step) (u w : Schema) : Turned (.descend step u w) (.descend step w u)

/-- The second list of tasks is the first one seen from the other side. Reports stand in any order
among each other, pairs to go on with stand in the same order. -/
inductive Reflect : List Task → List Task → Prop where
  | reports {es fs : List Edit} : Reflects Edit.Mirrors es fs →
    Reflect (es.map .report) (fs.map .report)
  | descents {ts us : List Task} : List.Forall₂ Turned ts us → Reflect ts us
  | append {ts us ts' us' : List Task} : Reflect ts us → Reflect ts' us' →
    Reflect (ts ++ ts') (us ++ us')

theorem common_comm (s t : Schema) : Names.common (propertyNames s) (propertyNames t) =
    Names.common (propertyNames t) (propertyNames s) := by
  unfold Names.common propertyNames
  have ascending (names : List String) (p : String → Bool) :=
    (Names.ascending_ofList names).filter p
  refine (ascending _ _).eq_of_mem_iff (ascending _ _) fun name => ?_
  simp only [List.mem_filter, List.contains_eq_mem, decide_eq_true_eq]
  exact And.comm

theorem propertyTasks_reflect (s t : Schema) : Reflect (propertyTasks s t) (propertyTasks t s) := by
  have names (before after : List String) :
      Reflect
        ((Names.without before after).map (fun name => report (.propertyRemove (isOpen s) name)) ++
          (Names.without after before).map (fun name => report (.propertyAdd (isOpen s) name)))
        ((Names.without after before).map (fun name => report (.propertyRemove (isOpen t) name)) ++
          (Names.without before after).map (fun name => report (.propertyAdd (isOpen t) name))) := by
    have edits := (Reflects.of_map (Edit.Mirrors.propertyRemove (isOpen s) (isOpen t))
      (Names.without before after)).append_swap
      (.of_map (Edit.Mirrors.propertyAdd (isOpen s) (isOpen t)) (Names.without after before))
    have tasks := Reflect.reports edits
    simp only [List.map_append, List.map_map] at tasks
    exact tasks
  refine .append (names _ _) (.descents ?_)
  rw [common_comm]
  refine List.rel_filterMap (R := Eq) ?_ (List.forall₂_same.mpr fun _ _ => rfl)
  rintro name _ rfl
  dsimp only
  rcases s.properties.lookup name with _ | u <;> rcases t.properties.lookup name with _ | w
  · exact .none
  · exact .none
  · exact .none
  · exact .some (.descend _ u w)

theorem additionalTasks_reflect (hs : s.Rekeyed s) (ht : t.Rekeyed t) :
    Reflect (additionalTasks s t) (additionalTasks t s) := by
  unfold additionalTasks
  rcases left : s.additional with _ | u <;> rcases right : t.additional with _ | w
  · exact .descents .nil
  · exact .descents .nil
  · exact .descents .nil
  · dsimp only
    rw [alike_comm (ht.child (.additional right)) (hs.child (.additional left))]
    split
    · exact .descents .nil
    · exact .descents (.cons (.descend _ u w) .nil)

theorem positionTasks_reflect (pairs : List (Schema × Schema)) (index : Nat) :
    Reflect (positionTasks index pairs) (positionTasks index (pairs.map Prod.swap)) := by
  refine .descents ?_
  induction pairs generalizing index with
  | nil => exact .nil
  | cons p rest ih => exact .cons (.descend _ p.1 p.2) (ih (index + 1))

theorem itemTasks_reflect (s t : Schema) : Reflect (itemTasks s t) (itemTasks t s) := by
  have report {e e' : Edit} (h : e.Mirrors e') : Reflect [.report e] [.report e'] :=
    show Reflect ([e].map Task.report) ([e'].map Task.report) from .reports (.singleton h)
  unfold itemTasks
  rcases s.items with _ | (u | us) <;> rcases t.items with _ | (w | ws)
  case some.every.some.every => exact .descents (.cons (.descend _ u w) .nil)
  case some.every.some.positions =>
    have pairs := positionTasks_reflect (ws.map fun w => (u, w)) 0
    rw [List.map_map] at pairs
    exact (report (.arrayToTuple _)).append pairs
  case some.positions.some.every =>
    have pairs := positionTasks_reflect (us.map fun u => (u, w)) 0
    rw [List.map_map] at pairs
    exact (report (.tupleToArray _)).append pairs
  case some.positions.some.positions =>
    have pairs := positionTasks_reflect (us.zip ws) 0
    rw [List.zip_swap] at pairs
    refine .append ?_ pairs
    by_cases same : us.length = ws.length
    · rw [if_pos same, if_pos same.symm]
      exact .descents .nil
    · rw [if_neg same, if_neg (Ne.symm same)]
      exact report (.tupleChange _ _)
  all_goals exact .descents .nil

theorem facetTasks_reflect (hs : s.Rekeyed s) (ht : t.Rekeyed t) :
    Reflect (facetTasks s t) (facetTasks t s) :=
  .append (.append (.append (.append (.append (propertyTasks_reflect s t)
    (.reports (rangeEdits_reflect s t))) (additionalTasks_reflect hs ht)) (itemTasks_reflect s t))
    (.reports (requiredEdits_reflect s t))) (.reports (textEdits_reflect s t))

theorem tasks_reflect (hs : s.Rekeyed s) (ht : t.Rekeyed t) :
    Reflect (Comparing.tasks false false s t) (Comparing.tasks false false t s) := by
  have left := unfoldConst_rekeyed hs
  have right := unfoldConst_rekeyed ht
  exact .append (.append (.reports (typeEdits_reflect s t))
    (.reports (constEdits_reflect left.unfold.const right.unfold.const)))
    (facetTasks_reflect left right)

end Task

/-! ## Mirrored courses -/

/-- Two outcomes end in the same way, and what they emit reflects each other. -/
structure Outcome.Reflect (o p : Outcome Change Fault Unit) : Prop where
  emitted : Reflects Change.Mirrors o.emitted p.emitted
  result : o.result = p.result

theorem Outcome.Reflect.andThen {o p o' p' : Outcome Change Fault Unit} (h : o.Reflect p)
    (k : o'.Reflect p') : (o.andThen fun _ => o').Reflect (p.andThen fun _ => p') := by
  rcases ended : o.result with e | u
  · rw [Outcome.andThen_error ended, Outcome.andThen_error (h.result ▸ ended)]
    exact ⟨h.emitted, rfl⟩
  · rw [Outcome.andThen_ok ended, Outcome.andThen_ok (h.result ▸ ended)]
    exact ⟨h.emitted.append k.emitted, k.result⟩

/-- The setting seen from the other side. -/
def Setting.exchanged (setting : Setting) : Setting :=
  { setting with old := setting.new, new := setting.old }

namespace Course

/-- A schema without alternatives and without repeated names. -/
structure Orderly (s : Schema) : Prop where
  rekeyed : s.Rekeyed s
  undivided : s.Throughout Undivided

theorem Orderly.child {s u : Schema} (h : Orderly s) (hu : Child u s) : Orderly u :=
  ⟨h.rekeyed.child hu, h.undivided.child hu⟩

theorem Orderly.unfoldConst {s : Schema} (h : Orderly s) : Orderly s.unfoldConst :=
  ⟨unfoldConst_rekeyed h.rekeyed,
    h.undivided.unfoldConst h.undivided.here.unfoldConst fun x _ => throughout_ofConst .ofConst x⟩

variable {setting : Setting}

/-- What the references of a setting lead to is orderly. -/
structure OrderlySetting (setting : Setting) : Prop where
  old : ∀ s, Orderly s → Orderly (setting.old.follow s).schema
  new : ∀ s, Orderly s → Orderly (setting.new.follow s).schema

theorem tasksOf_orderly (h : OrderlySetting setting) (path : String) {s t : Schema}
    (hs : Orderly s) (ht : Orderly t) :
    tasksOf setting ⟨path, s, t, false⟩ =
      Comparing.tasks false false (setting.old.follow s).schema (setting.new.follow t).schema :=
  tasksOf_undivided (h.old s hs).undivided.here (h.new t ht).undivided.here path

/-- No orderly pair has anything to align, and whatever stands below one is orderly. -/
theorem branchless_orderly (h : OrderlySetting setting) :
    Branchless setting fun s t => Orderly s ∧ Orderly t where
  anyOf s _ hpair := by
    have old := (h.old s hpair.1).undivided.here
    rw [old.split_eq, old.anyOf]
  below path s t step u w hpair hmem := by
    rw [tasksOf_orderly h path hpair.1 hpair.2] at hmem
    obtain ⟨left, right⟩ := Task.children_of_tasks hmem
    exact ⟨(h.old s hpair.1).unfoldConst.child left, (h.new t hpair.2).unfoldConst.child right⟩

/-- Tasks that are seen from the other side come to outcomes that are. -/
theorem each_reflect {f g : Visit → Outcome Change Fault Unit} (path : String) {ts us : List Task}
    (h : Task.Reflect ts us)
    (below : ∀ step u w, .descend step u w ∈ ts → ∀ path,
      (f ⟨path, u, w, false⟩).Reflect (g ⟨path, w, u, false⟩)) :
    (Outcome.each (Job.outcome f) (ts.map (Job.ofTask path))).Reflect
      (.each (Job.outcome g) (us.map (Job.ofTask path))) := by
  induction h with
  | @reports es fs edits =>
    have listed (f : Visit → Outcome Change Fault Unit) (es : List Edit) :
        Outcome.each (Job.outcome f) ((es.map .report).map (Job.ofTask path)) =
          ⟨es.map (Change.mk path), .ok ()⟩ := by
      rw [← each_reports f, List.map_map, List.map_map]
      rfl
    rw [listed, listed]
    exact ⟨edits.map fun _ _ mirrored => ⟨rfl, mirrored⟩, rfl⟩
  | descents turned =>
    induction turned with
    | nil => exact ⟨.nil, rfl⟩
    | cons first _ ih =>
      cases first with
      | descend step u w =>
        exact (below step u w List.mem_cons_self _).andThen
          (ih fun step u w hmem => below step u w (List.mem_cons_of_mem _ hmem))
  | append _ _ ih ih' =>
    rw [List.map_append, List.map_append, Outcome.each_append, Outcome.each_append]
    exact (ih fun step u w hmem => below step u w (List.mem_append_left _ hmem)).andThen
      (ih' fun step u w hmem => below step u w (List.mem_append_right _ hmem))

/-- The course of an orderly pair, seen from the other side. The induction is on the levels: the
tasks of a pair are mirrored one by one, and the pairs that they go on with are orderly again. -/
theorem within_reflect (h : OrderlySetting setting) (levels : Nat) (path : String) {s t : Schema}
    (hs : Orderly s) (ht : Orderly t) :
    (within setting levels ⟨path, s, t, false⟩).Reflect
      (within setting.exchanged levels ⟨path, t, s, false⟩) := by
  induction levels generalizing path s t with
  | zero => exact ⟨.nil, rfl⟩
  | succ levels ih =>
    have h' : OrderlySetting setting.exchanged := ⟨h.new, h.old⟩
    have there := branchless_orderly h
    have back := branchless_orderly h'
    rw [there.within_succ levels path ⟨hs, ht⟩, back.within_succ levels path ⟨ht, hs⟩]
    refine each_reflect path ?_ fun step u w hmem path => ?_
    · rw [tasksOf_orderly h path hs ht, tasksOf_orderly h' path ht hs]
      exact Task.tasks_reflect (h.old s hs).rekeyed (h.new t ht).rekeyed
    · obtain ⟨hu, hw⟩ := there.below _ s t step u w ⟨hs, ht⟩ hmem
      exact ih path hu hw

end Course

/-! ## Documents -/

namespace Comparison

open Course

/-- A document without repeated keys that is read as a schema without alternatives is read as an
orderly schema with orderly definitions. -/
theorem orderly_of_document {x : Json} (distinct : x.Throughout Json.DistinctKeys) {s : Schema}
    (built : Schema.ofDocument x = .ok s) (undivided : s.Throughout Undivided) :
    Orderly s ∧ ∀ u, Orderly u → Orderly ((References.ofRoot s).follow u).schema := by
  obtain ⟨_, again, rekeyed, references⟩ := ofDocument_restated (.same x) distinct distinct built
  obtain rfl := Except.ok.inj (built.symm.trans again)
  refine ⟨⟨rekeyed, undivided⟩, fun u hu => ⟨?_, ?_⟩⟩
  · exact References.follow_rekeyed references hu.rekeyed
  · exact References.follow_throughout undivided hu.undivided

/-- For two documents without branches and without lists of several kinds, the comparison from right
to left fails exactly if the one from left to right does, with the same fault, and reports the
mirror of what that one reports. -/
theorem exchanged_reflects (limit : DepthLimit) {capacity : Int} (room : 1 ≤ capacity)
    {left right : Json} (distinctLeft : left.Throughout Json.DistinctKeys)
    (distinctRight : right.Throughout Json.DistinctKeys) {s t : Schema}
    (builtLeft : Schema.ofDocument left = .ok s) (builtRight : Schema.ofDocument right = .ok t)
    (hs : s.Throughout Undivided) (ht : t.Throughout Undivided) :
    (ofDocuments limit capacity right left).fault = (ofDocuments limit capacity left right).fault ∧
    (∀ e, (ofDocuments limit capacity left right).fault = some e →
      ∃ path, e = .tooDeep path limit.value) ∧
    Reflects Change.Mirrors (ofDocuments limit capacity left right).reported
      (ofDocuments limit capacity right left).reported := by
  obtain ⟨n, enough, there⟩ := ofDocuments_eq limit room builtLeft builtRight
  obtain ⟨m, -, back⟩ := ofDocuments_eq limit room builtRight builtLeft
  obtain ⟨orderly, followed⟩ := orderly_of_document distinctLeft builtLeft hs
  obtain ⟨orderly', followed'⟩ := orderly_of_document distinctRight builtRight ht
  have setting : OrderlySetting (Setting.ofRoots s t limit.value) := ⟨followed, followed'⟩
  have setting' : OrderlySetting (Setting.ofRoots t s limit.value) := ⟨followed', followed⟩
  obtain ⟨reported, failed⟩ := ofRoots_of_branchless (.empty n) (branchless_orderly setting)
    ⟨orderly, orderly'⟩
  obtain ⟨reported', failed'⟩ := ofRoots_of_branchless (.empty m) (branchless_orderly setting')
    ⟨orderly', orderly⟩
  have reflected : (within (Setting.ofRoots s t limit.value) (limit.value + 1) (rootVisit s t)).Reflect
      (within (Setting.ofRoots t s limit.value) (limit.value + 1) (rootVisit t s)) :=
    within_reflect setting (limit.value + 1) "" orderly orderly'
  obtain ⟨-, -, -, tooDeep⟩ := ofRoots_between s t limit (Memo.sound_empty enough)
  rw [there, back, reported, reported']
  refine ⟨Option.ext fun e => ?_, tooDeep, reflected.emitted⟩
  rw [failed, failed', reflected.result]

/-! ### An example -/

/-- A table whose rows are described by a rule on items. -/
def table (required : List Json) (items : Json) : Json :=
  .obj [("required", .arr required), ("properties", .obj [
    ("rows", .obj [("type", .str "array"), ("items", items)])])]

def cellSchema (kind : Kind) (least : Option Double) : Schema :=
  { everything with kinds := some [kind], number := { NumberRules.none with minimum := least } }

def tableSchema (required : List String) (items : Items Schema) : Schema :=
  { everything with
    required
    properties := [("rows", { everything with kinds := some [.array], items := some items })] }

/-- Pairs of a text and a number. -/
def pairTable : Json :=
  table [.str "rows"] (.arr [.obj [("type", .str "string")], .obj [("type", .str "integer")]])

/-- Positive numbers. -/
def numberTable : Json :=
  table [] (.obj [("type", .str "integer"), ("minimum", .num (.int 1))])

def pairSchema : Schema :=
  tableSchema ["rows"] (.positions [cellSchema .string none, cellSchema .integer none])

def numberSchema : Schema :=
  tableSchema [] (.every (cellSchema .integer (some (Double.ofInt 1))))

theorem cellSchema_undivided (kind : Kind) (least : Option Double) :
    (cellSchema kind least).Throughout Undivided := by
  refine throughout_iff.mpr
    ⟨⟨fun ks hks => ⟨kind, (Option.some.inj hks).symm⟩, rfl⟩, fun u hu => ?_⟩
  cases hu <;> contradiction

theorem tableSchema_undivided (required : List String) {items : Items Schema}
    (every : ∀ u, items = .every u → u.Throughout Undivided)
    (positions : ∀ us, items = .positions us → ∀ u ∈ us, u.Throughout Undivided) :
    (tableSchema required items).Throughout Undivided := by
  refine throughout_iff.mpr ⟨⟨nofun, rfl⟩, fun u hu => ?_⟩
  cases hu with
  | property hu =>
    obtain ⟨-, rfl⟩ := Prod.mk.inj (List.mem_singleton.mp hu)
    refine throughout_iff.mpr ⟨⟨fun ks hks => ⟨.array, (Option.some.inj hks).symm⟩, rfl⟩, ?_⟩
    intro w hw
    cases hw with
    | every hw => exact every w (Option.some.inj hw)
    | position hw hmem => exact positions _ (Option.some.inj hw) w hmem
    | _ => contradiction
  | _ => contradiction

theorem pairSchema_undivided : pairSchema.Throughout Undivided := by
  refine tableSchema_undivided ["rows"] nofun fun us hus u hu => ?_
  obtain rfl := Items.positions.inj hus
  rcases List.mem_pair.mp hu with rfl | rfl
  · exact cellSchema_undivided _ _
  · exact cellSchema_undivided _ _

theorem numberSchema_undivided : numberSchema.Throughout Undivided := by
  refine tableSchema_undivided [] (fun u hu => ?_) nofun
  obtain rfl := Items.every.inj hu
  exact cellSchema_undivided _ _

/-- A table of pairs becomes one of positive numbers, which takes six changes either way. -/
theorem exchanged_reflects_tables :
    (1 : Int) ≤ 1 ∧ pairTable.Throughout Json.DistinctKeys ∧
    numberTable.Throughout Json.DistinctKeys ∧ Schema.ofDocument pairTable = .ok pairSchema ∧
    Schema.ofDocument numberTable = .ok numberSchema ∧ pairSchema.Throughout Undivided ∧
    numberSchema.Throughout Undivided ∧
    (ofDocuments .standard 1 pairTable numberTable).reported.length = 6 ∧
    (ofDocuments .standard 1 numberTable pairTable).fault =
      (ofDocuments .standard 1 pairTable numberTable).fault ∧
    Reflects Change.Mirrors (ofDocuments .standard 1 pairTable numberTable).reported
      (ofDocuments .standard 1 numberTable pairTable).reported := by
  have distinct : pairTable.Throughout Json.DistinctKeys := by
    simp [pairTable, table, Json.DistinctKeys, Fields.keys]
  have distinct' : numberTable.Throughout Json.DistinctKeys := by
    simp [numberTable, table, Json.DistinctKeys, Fields.keys]
  obtain ⟨fault, -, reflected⟩ := exchanged_reflects .standard (Int.le_refl 1) distinct distinct'
    (s := pairSchema) (t := numberSchema) rfl rfl pairSchema_undivided numberSchema_undivided
  exact ⟨Int.le_refl 1, distinct, distinct', rfl, rfl, pairSchema_undivided, numberSchema_undivided,
    by decide +kernel, fault, reflected⟩

end Comparison

end SchemaDrift
