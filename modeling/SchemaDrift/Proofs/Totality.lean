import SchemaDrift.Proofs.Descents
import SchemaDrift.Proofs.Endings
import SchemaDrift.Proofs.Reflexivity
import SchemaDrift.Proofs.Schema.Parts

/-!
# Nothing but depth can stop a comparison

Some operations of a comparison work only on part of what they may be given: a type is unpacked as
if it had one kind, names and positions are looked up as if they were there, and costs are searched
as if they formed a square without negative entries. The strict comparison does all that with a
check and stops with a mishap where one fails. It is the same as the plain one, so no check ever
fails.

* `Typing.Stored` is a type as it is stored, `Typing.Stored.explode?` unpacks it with a check, and
  `Schema.stored?_eq` says that the check succeeds for every schema.
* `Comparing.visitStrictly` visits one pair with all checks, and `compareStrictly` compares.
* `compareStrictly_eq` says that the strict comparison is the plain one.
* `Course.Exhausted` says that branches are gone through one by one.
* `Comparison.only_depth_stops` is the main statement.
-/

namespace SchemaDrift

/-! ## Stored types -/

namespace Typing

inductive Form where
  | any
  | never
  | simple
  | multiple

/-- A type as it is stored: a form and a list of kinds, whatever their number. -/
structure Stored where
  form : Form
  kinds : List Kind

def only? {α : Type} : List α → Option α
  | [x] => some x
  | _ => none

/-- All kinds of a stored type. A simple type must have one kind, which is unpacked. -/
def Stored.explode? (t : Stored) : Option (List Kind) :=
  match t.form with
  | .any => some Kind.all
  | .never => some []
  | .simple => (only? t.kinds).map covered
  | .multiple => some (t.kinds.flatMap covered)

def toStored : Typing → Stored
  | .single k => ⟨.simple, [k]⟩
  | .listed ks => ⟨.multiple, ks⟩
  | .any => ⟨.any, []⟩
  | .never => ⟨.never, []⟩

theorem explode?_toStored (t : Typing) : t.toStored.explode? = some t.admitted := by
  cases t <;> rfl

end Typing

namespace Schema

open Typing (Stored)

mutual

/-- The effective type of a schema as it is stored, if those of its branches can be unpacked. -/
def stored? : Schema → Option Stored
  | ⟨kinds, const, _, _, properties, _, _, _, anyOf, negated, _, _, _⟩ =>
    match kinds with
    | some ks => some (if ks.length = 1 then ⟨.simple, ks⟩ else ⟨.multiple, ks⟩)
    | none =>
      match const with
      | some value => some ⟨.simple, [value.kind]⟩
      | none =>
        if !properties.isEmpty then some ⟨.simple, [.object]⟩
        else
          match anyOf with
          | some branches => (storedKinds? branches).map fun kinds =>
              ⟨.multiple, Kind.all.filter fun k => kinds.contains k⟩
          | none =>
            match negated with
            | some s => some (if s.isUnconstrained then ⟨.never, []⟩ else ⟨.any, []⟩)
            | none => some ⟨.any, []⟩

/-- The kinds of the branches, if all their types can be unpacked. -/
def storedKinds? : List Schema → Option (List Kind)
  | [] => some []
  | s :: rest =>
    (stored? s).bind fun t => t.explode?.bind fun kinds =>
      (storedKinds? rest).map fun more => kinds ++ more

end

theorem storedKinds?_eq {branches : List Schema}
    (known : ∀ s ∈ branches, s.stored? = some s.typing.toStored) :
    storedKinds? branches = some (branchKinds branches) := by
  induction branches with
  | nil => rfl
  | cons s rest ih =>
    rw [storedKinds?, known s List.mem_cons_self, Option.bind_some, Typing.explode?_toStored,
      Option.bind_some, ih fun u hu => known u (List.mem_cons_of_mem s hu), branchKinds]
    rfl

/-- Every effective type is stored so that it can be unpacked. -/
theorem stored?_eq (s : Schema) : s.stored? = some s.typing.toStored := by
  induction s using child_induction with
  | step s ih =>
    have branches (us : List Schema) (hus : s.anyOf = some us) :=
      storedKinds?_eq fun u hu => ih u (.branch hus hu)
    obtain ⟨kinds, const, number, text, properties, required, additional, items, anyOf, negated,
      reference, identifier, definitions⟩ := s
    rw [stored?.eq_def, typing.eq_def]
    dsimp only
    rcases kinds with _ | ks
    · rcases const with _ | value
      · dsimp only
        split
        · rfl
        · rcases anyOf with _ | us
          · rcases negated with _ | u
            · rfl
            · dsimp only
              split <;> rfl
          · dsimp only
            rw [branches us rfl]
            rfl
      · rfl
    · rcases ks with _ | ⟨k, _ | ⟨l, ks⟩⟩
      · rfl
      · rfl
      · dsimp only
        rw [if_neg (by simp)]
        rfl

/-- The kinds of a schema as a set, taken from its type as it is stored. -/
def storedSet? (s : Schema) : Option (List Kind) :=
  s.stored?.bind fun t => t.explode?.map fun kinds => Kind.all.filter fun k => kinds.contains k

theorem storedSet?_eq (s : Schema) : s.storedSet? = some s.typing.kindSet := by
  rw [storedSet?, stored?_eq, Option.bind_some, Typing.explode?_toStored]
  rfl

end Schema

/-! ## Tasks with checks -/

namespace Task

/-- The edits of the kinds of a pair, taken from its types as they are stored. -/
def typeEdits? (old new : Schema) : Option (List Edit) :=
  old.storedSet?.bind fun before => new.storedSet?.map fun after =>
    (before.filter fun k => !after.contains k).map .typeRemove ++
      (after.filter fun k => !before.contains k).map .typeAdd

/-- The pair of schemas under a name, if both sides declare it. -/
def sharedProperty? (old new : Schema) (name : String) : Option Task :=
  (old.properties.lookup name).bind fun s => (new.properties.lookup name).map fun t =>
    descend (.property name) s t

/-- The tasks of the properties, if every name of both sides is declared on both sides. -/
def propertyTasks? (old new : Schema) : Option (List Task) :=
  let before := propertyNames old
  let after := propertyNames new
  ((Names.common before after).mapM (sharedProperty? old new)).map fun pairs =>
    (Names.without before after).map (fun name => report (.propertyRemove (isOpen old) name)) ++
    (Names.without after before).map (fun name => report (.propertyAdd (isOpen old) name)) ++
    pairs

/-- The tasks of all rules but kinds, constants and branches, if all look-ups succeed. -/
def facetTasks? (old new : Schema) : Option (List Task) :=
  (propertyTasks? old new).map fun properties =>
    properties ++ (rangeEdits old new).map report ++ additionalTasks old new ++
      itemTasks old new ++ (requiredEdits old new).map report ++ (textEdits old new).map report

theorem typeEdits?_eq (old new : Schema) : typeEdits? old new = some (typeEdits old new) := by
  rw [typeEdits?, Schema.storedSet?_eq, Schema.storedSet?_eq]
  rfl

theorem mapM_eq_filterMap {α β : Type} {f : α → Option β} {xs : List α}
    (h : ∀ x ∈ xs, (f x).isSome) : xs.mapM f = some (xs.filterMap f) := by
  induction xs with
  | nil => rfl
  | cons x xs ih =>
    obtain ⟨y, hy⟩ := Option.isSome_iff_exists.mp (h x List.mem_cons_self)
    rw [List.mapM_cons, hy, ih fun z hz => h z (List.mem_cons_of_mem x hz), List.filterMap_cons, hy]
    rfl

theorem propertyTasks?_eq (old new : Schema) :
    propertyTasks? old new = some (propertyTasks old new) := by
  have declared (name : String)
      (h : name ∈ Names.common (propertyNames old) (propertyNames new)) :
      (sharedProperty? old new name).isSome := by
    obtain ⟨before, after⟩ := List.mem_filter.mp h
    obtain ⟨s, hs⟩ := Option.isSome_iff_exists.mp (mem_propertyNames.mp before)
    obtain ⟨t, ht⟩ := Option.isSome_iff_exists.mp
      (mem_propertyNames.mp (List.contains_iff_mem.mp after))
    rw [sharedProperty?, hs, ht]
    rfl
  unfold propertyTasks? propertyTasks
  dsimp only
  rw [mapM_eq_filterMap declared, Option.map_some]
  refine congrArg some (congrArg (_ ++ ·) (List.filterMap_congr fun name _ => ?_))
  unfold sharedProperty?
  rcases old.properties.lookup name with _ | s <;>
    rcases new.properties.lookup name with _ | t <;> rfl

theorem facetTasks?_eq (old new : Schema) : facetTasks? old new = some (facetTasks old new) := by
  rw [facetTasks?, propertyTasks?_eq]
  rfl

end Task

/-! ## Comparisons with checks -/

namespace Comparing

variable (mishap : Fault)

def ensure (check : Bool) : Comparing Unit :=
  if check then Session.done () else Session.fail mishap

def require {α : Type} : Option α → Comparing α
  | some x => Session.done x
  | none => Session.fail mishap

/-- Whether costs may be searched: they form a square, and none is negative. -/
def isSearchable (costs : Assignment.Costs) : Bool :=
  Assignment.isSquare costs && costs.all fun row => row.all fun c => decide (0 ≤ c)

/-- Goes on with the branch of a row and the branch of its column, which must both be there. -/
def goTo (descend : Visit → Comparing Unit) (path : String) (split : Bool)
    (olds news : List Schema) (column row : Nat) : Comparing Unit :=
  Session.bind (require mishap olds[row]?) fun s =>
  Session.bind (require mishap news[column]?) fun t =>
    let step : Step := if split then .splitBranch else .branch column
    descend ⟨path ++ step.suffix, s, t, true⟩

/-- Aligns branches. The costs must be searchable, and the columns that are found must be all
columns, each of them once. -/
def alignStrictly (setting : Setting) (descend : Visit → Comparing Unit)
    (price : Schema → Schema → Comparing Nat) (path : String) (old new : Schema) (split : Bool) :
    Comparing Unit :=
  match old.anyOf, new.anyOf with
  | some olds, some news =>
    let length := max olds.length news.length
    let olds := fillUp length olds
    let news := fillUp length news
    Session.bind (Session.collect (fun s => Session.collect (price s) news) olds) fun costs =>
      let costs := costs.map fun row => row.map Int.ofNat
      Session.bind (ensure mishap (isSearchable costs && decide (costs.length = length))) fun _ =>
        let columns := setting.align costs
        Session.bind (ensure mishap (Assignment.isPermutation length columns)) fun _ =>
          Session.bind (note (.aligned path columns)) fun _ =>
            Session.each (fun entry => goTo mishap descend path split olds news entry.1 entry.2)
              columns.zipIdx
  | _, _ => Session.done ()

/-- The tasks of a pair beside its branches, if all checks succeed. -/
def tasks? (aligned split : Bool) (old new : Schema) : Option (List Task) :=
  let unfoldedOld := old.unfoldConst
  let unfoldedNew := new.unfoldConst
  (if aligned then some [] else (Task.typeEdits? old new).map fun edits => edits.map .report).bind
    fun kinds => (if split then some [] else Task.facetTasks? unfoldedOld unfoldedNew).map
      fun facets => kinds ++ (Task.constEdits unfoldedOld unfoldedNew).map .report ++ facets

def visitStrictly (setting : Setting) (descend : Visit → Comparing Unit)
    (price : Schema → Schema → Comparing Nat) (v : Visit) : Comparing Unit := do
  let old ← follow setting.old v.old
  let new ← follow setting.new v.new
  let splitOld := old.split?.isSome
  let splitNew := new.split?.isSome
  if splitOld || splitNew then note (.split v.path splitOld splitNew)
  let old := old.split
  let new := new.split
  alignStrictly mishap setting descend price v.path old new splitNew
  let tasks ← require mishap (tasks? v.aligned (splitOld || splitNew) old new)
  Session.each (perform descend v.path) tasks

end Comparing

/-- Compares a pair and all that is below it with all checks. -/
def compareStrictly (mishap : Fault) (setting : Setting) : Nat → Visit → Comparing Unit
  | 0, v => Session.fail (.tooDeep v.path setting.limit)
  | levels + 1, v =>
    Comparing.visitStrictly mishap setting (compareStrictly mishap setting levels)
      (setting.pricing fun s t =>
        Session.tally (compareStrictly mishap setting levels ⟨"", s, t, false⟩)) v

namespace Comparing

variable {mishap : Fault}

theorem ensure_true {check : Bool} (h : check = true) :
    ensure mishap check = Session.done () :=
  if_pos h

theorem tasks?_eq (aligned split : Bool) (old new : Schema) :
    tasks? aligned split old new = some (tasks aligned split old new) := by
  unfold tasks? tasks
  dsimp only
  rw [Task.typeEdits?_eq, Task.facetTasks?_eq]
  cases aligned <;> cases split <;> rfl

theorem branchVisits_cons {path : String} {split : Bool} {s : Schema} {olds news : List Schema}
    {j : Nat} {columns : List Nat} (hj : j < news.length) :
    branchVisits path split (s :: olds) news (j :: columns) =
      ⟨path ++ (if split then Step.splitBranch else .branch j).suffix, s, news[j], true⟩ ::
        branchVisits path split olds news columns := by
  unfold branchVisits
  rw [List.zip_cons_cons, List.filterMap_cons]
  dsimp only
  rw [List.getElem?_eq_getElem hj]
  rfl

theorem goTo_eq {descend : Visit → Comparing Unit} {path : String} {split : Bool}
    {olds news : List Schema} {column row : Nat} (hrow : row < olds.length)
    (hcolumn : column < news.length) :
    goTo mishap descend path split olds news column row =
      descend ⟨path ++ (if split then Step.splitBranch else .branch column).suffix, olds[row],
        news[column], true⟩ := by
  unfold goTo
  rw [List.getElem?_eq_getElem hrow, List.getElem?_eq_getElem hcolumn]
  exact (Session.bind_done _ _).trans (Session.bind_done _ _)

/-- Going through the rows with their columns is going through the aligned pairs. -/
theorem each_goTo {descend : Visit → Comparing Unit} {path : String} {split : Bool}
    {olds news : List Schema} {columns : List Nat} (row : Nat)
    (length : columns.length = (olds.drop row).length) (within : ∀ j ∈ columns, j < news.length) :
    Session.each (fun entry => goTo mishap descend path split olds news entry.1 entry.2)
        (columns.zipIdx row) =
      Session.each descend (branchVisits path split (olds.drop row) news columns) := by
  induction columns generalizing row with
  | nil =>
    rw [List.eq_nil_of_length_eq_zero length.symm]
    rfl
  | cons j columns ih =>
    rw [List.length_drop, List.length_cons] at length
    have inside : row < olds.length := by omega
    have hj : j < news.length := within j List.mem_cons_self
    have rest := ih (row + 1) (by rw [List.length_drop]; omega) fun i hi =>
      within i (List.mem_cons_of_mem j hi)
    rw [List.drop_eq_getElem_cons inside, branchVisits_cons hj, List.zipIdx_cons, Session.each,
      Session.each, goTo_eq inside hj, rest]

theorem forall_of_forall₂ {α β : Type} {P : β → Prop} {xs : List α} {ys : List β}
    (h : List.Forall₂ (fun _ y => P y) xs ys) : ∀ y ∈ ys, P y := by
  induction h with
  | nil => exact nofun
  | cons first _ ih => exact List.forall_mem_cons.mpr ⟨first, ih⟩

/-- No price is negative, so a square of prices may be searched. -/
theorem isSearchable_square {costs : List (List Nat)}
    (square : Assignment.isSquare (Course.square costs) = true) :
    isSearchable (Course.square costs) = true := by
  simp only [isSearchable, Bool.and_eq_true, List.all_eq_true, decide_eq_true_eq]
  exact ⟨square, Course.square_nonneg costs⟩

/-- An alignment that always finds all columns is the same with all checks. -/
theorem alignStrictly_eq {setting : Setting} (best : Assignment.Optimal setting.align)
    (descend : Visit → Comparing Unit) (price : Schema → Schema → Comparing Nat) (path : String)
    (old new : Schema) (split : Bool) :
    alignStrictly mishap setting descend price path old new split =
      alignBranches setting descend price path old new split := by
  unfold alignStrictly alignBranches
  rcases old.anyOf with _ | olds
  · rfl
  rcases new.anyOf with _ | news
  · rfl
  dsimp only
  have left := Course.length_fillUp (max olds.length news.length) olds
  have right := Course.length_fillUp (max olds.length news.length) news
  rw [Nat.max_eq_left (Nat.le_max_left _ _)] at left
  rw [Nat.max_eq_left (Nat.le_max_right _ _)] at right
  generalize max olds.length news.length = length at left right ⊢
  generalize fillUp length olds = olds at left ⊢
  generalize fillUp length news = news at right ⊢
  have anything (m : Comparing Nat) :
      Session.Ends (fun _ => True) (fun _ => True) (fun _ => True) m :=
    fun _ _ => ⟨trivial, fun _ _ => trivial, fun _ _ => trivial⟩
  have collected (s : Schema) : Session.Ends (fun _ => True) (fun _ => True)
      (fun row => row.length = length) (Session.collect (price s) news) :=
    (Session.Ends.collect fun t _ => anything (price s t)).mono (fun _ _ => trivial)
      fun row priced => priced.length_eq.symm.trans right
  refine Session.bind_congr (Session.Ends.collect fun s _ => collected s) fun costs sized => ?_
  have rows : costs.length = length := sized.length_eq.symm.trans left
  have square : Assignment.isSquare (Course.square costs) = true := by
    simp only [Assignment.isSquare, Course.square, List.all_eq_true, List.mem_map, beq_iff_eq]
    rintro _ ⟨row, hrow, rfl⟩
    rw [List.length_map, List.length_map, forall_of_forall₂ sized row hrow, rows]
  have size : (Course.square costs).length = length := (List.length_map _).trans rows
  have found := (best _ square).perm
  rw [size] at found
  show Session.bind (ensure mishap (isSearchable (Course.square costs) &&
    decide ((Course.square costs).length = length))) _ = _
  rw [ensure_true (by rw [isSearchable_square square, size]; simp), Session.bind_done]
  show Session.bind (ensure mishap (Assignment.isPermutation length
    (setting.align (Course.square costs)))) _ = _
  rw [ensure_true (Assignment.isPermutation_iff.mpr found), Session.bind_done]
  refine congrArg (Session.bind _) (funext fun _ => ?_)
  have size := found.length_eq.trans (List.length_range.trans left.symm)
  exact each_goTo 0 size fun j hj => by
    rw [right]
    exact List.mem_range.mp (found.mem_iff.mp hj)

theorem visitStrictly_eq {setting : Setting} (best : Assignment.Optimal setting.align)
    (descend : Visit → Comparing Unit) (price : Schema → Schema → Comparing Nat) (v : Visit) :
    visitStrictly mishap setting descend price v = visit setting descend price v := by
  unfold visitStrictly visit
  simp only [alignStrictly_eq best, tasks?_eq]
  rfl

end Comparing

/-- The strict comparison is the plain one, whatever the mishap would be. -/
theorem compareStrictly_eq {setting : Setting} (best : Assignment.Optimal setting.align)
    (mishap : Fault) (levels : Nat) :
    compareStrictly mishap setting levels = compareWithin setting levels := by
  induction levels with
  | zero => rfl
  | succ levels ih =>
    funext v
    rw [compareStrictly, compareWithin, ih, Comparing.visitStrictly_eq best]

/-! ## Every branch once -/

namespace Course

/-- The visits go through the branches on the left in order, and through those on the right in some
order: through each of them once. -/
structure Exhausted (sides : List Schema × List Schema) (visits : List Visit) : Prop where
  olds : visits.map Visit.old = sides.1
  news : (visits.map Visit.new).Perm sides.2

theorem partners_of_branchVisits (path : String) (split : Bool) {olds news : List Schema}
    {columns : List Nat} (length : columns.length = olds.length)
    (within : ∀ j ∈ columns, j < news.length) :
    (Comparing.branchVisits path split olds news columns).map Visit.old = olds ∧
      (Comparing.branchVisits path split olds news columns).map Visit.new =
        columns.map fun j => news.getD j .nothing := by
  induction columns generalizing olds with
  | nil =>
    rw [List.eq_nil_of_length_eq_zero length.symm]
    exact ⟨rfl, rfl⟩
  | cons j columns ih =>
    cases olds with
    | nil => exact absurd length (Nat.succ_ne_zero _)
    | cons s olds =>
      have hj : j < news.length := within j List.mem_cons_self
      obtain ⟨left, right⟩ := ih (Nat.succ.inj length) fun i hi =>
        within i (List.mem_cons_of_mem j hi)
      rw [Comparing.branchVisits_cons hj, List.map_cons, List.map_cons, List.map_cons, left, right,
        List.getD_eq_getElem _ _ hj]
      exact ⟨rfl, rfl⟩

/-- A permutation of the columns leads to every branch on both sides once. -/
theorem exhausted_of_perm {path : String} {split : Bool} {olds news : List Schema}
    {columns : List Nat} (sized : olds.length = news.length)
    (h : columns.Perm (List.range news.length)) :
    Exhausted (olds, news) (Comparing.branchVisits path split olds news columns) := by
  have length : columns.length = olds.length := by rw [h.length_eq, List.length_range, sized]
  obtain ⟨left, right⟩ := partners_of_branchVisits path split length
    fun j hj => List.mem_range.mp (h.mem_iff.mp hj)
  refine ⟨left, ?_⟩
  rw [right]
  refine (h.map _).trans (.of_eq ?_)
  refine List.ext_getElem (by simp) fun i hi hi' => ?_
  rw [List.getElem_map, List.getElem_range, List.getD_eq_getElem _ _ hi']

/-- Whatever the prices of the branches of a pair are, they may be searched, the columns found are
all columns, and the visits that follow go through every branch once. -/
theorem alignment_sound {setting : Setting} (best : Assignment.Optimal setting.align) {levels : Nat}
    {v : Visit} {costs : List (List Nat)}
    (priced : (prices (price setting levels) (branchesOf setting v)).result = .ok costs) :
    Comparing.isSearchable (square costs) = true ∧
      Assignment.isPermutation (branchesOf setting v).2.length (columns setting costs) = true ∧
      Exhausted (branchesOf setting v) (branchVisits setting v costs) := by
  have sized := branches_length (oldOf setting v).split (newOf setting v).split
  have rows := prices_eq_ok priced
  have least := columns_least best priced
  have size : (square costs).length = (branchesOf setting v).2.length := by
    rw [square, List.length_map, ← rows.length_eq]
    exact sized
  have found := least.perm
  rw [size] at found
  exact ⟨Comparing.isSearchable_square (square_isSquare sized rows),
    Assignment.isPermutation_iff.mpr found, exhausted_of_perm sized found⟩

end Course

/-! ## Comparisons of documents -/

namespace Comparison

/-- With room for one price, nothing but its depth can stop the comparison of two schemas. No check
of the strict comparison fails, of the comparison itself or of any below it: costs are searchable,
every column is found once and looked up on both sides, so that every branch of either side is gone
through once, and every type can be unpacked. -/
theorem only_depth_stops (limit : DepthLimit) {capacity : Int} (room : 1 ≤ capacity)
    {old new : Json} {s t : Schema} (hs : Schema.ofDocument old = .ok s)
    (ht : Schema.ofDocument new = .ok t) :
    ((ofDocuments limit capacity old new).fault = none ∨
      ∃ path, (ofDocuments limit capacity old new).fault = some (.tooDeep path limit.value)) ∧
    (∀ mishap levels, compareStrictly mishap (Setting.ofRoots s t limit.value) levels =
      compareWithin (Setting.ofRoots s t limit.value) levels) ∧
    ∀ (levels : Nat) (v : Visit) (costs : List (List Nat)),
      (Course.prices (Course.price (Setting.ofRoots s t limit.value) levels)
        (Course.branchesOf (Setting.ofRoots s t limit.value) v)).result = .ok costs →
      Comparing.isSearchable (Course.square costs) = true ∧
        Assignment.isPermutation (Course.branchesOf (Setting.ofRoots s t limit.value) v).2.length
          (Course.columns (Setting.ofRoots s t limit.value) costs) = true ∧
        Course.Exhausted (Course.branchesOf (Setting.ofRoots s t limit.value) v)
          (Course.branchVisits (Setting.ofRoots s t limit.value) v costs) := by
  have best : Assignment.Optimal (Setting.ofRoots s t limit.value).align := Assignment.solve_optimal
  refine ⟨?_, fun mishap levels => compareStrictly_eq best mishap levels,
    fun levels v costs => Course.alignment_sound best⟩
  obtain ⟨n, room, compared⟩ := ofDocuments_eq limit room hs ht
  obtain ⟨-, -, -, faults⟩ := ofRoots_between s t limit (Memo.sound_empty room)
  rw [compared]
  rcases failed : (ofRoots limit (.empty n) s t).fault with _ | e
  · exact .inl rfl
  · obtain ⟨path, rfl⟩ := faults e failed
    exact .inr ⟨path, rfl⟩

/-- The schema of a list of branches without any. -/
def branchless : Schema := { Schema.everything with anyOf := some [] }

/-- Two branches against none. -/
theorem only_depth_stops_branchless :
    (1 : Int) ≤ 1 ∧ Schema.ofDocument branched = .ok branchedSchema ∧
    Schema.ofDocument (.obj [("anyOf", .arr [])]) = .ok branchless ∧
    ((ofDocuments .standard 1 branched (.obj [("anyOf", .arr [])])).fault = none ∨
      ∃ path, (ofDocuments .standard 1 branched (.obj [("anyOf", .arr [])])).fault =
        some (.tooDeep path 128)) ∧
    ∀ mishap levels, compareStrictly mishap (Setting.ofRoots branchedSchema branchless 128) levels =
      compareWithin (Setting.ofRoots branchedSchema branchless 128) levels := by
  have hs : Schema.ofDocument branched = .ok branchedSchema := by cbv
  have ht : Schema.ofDocument (.obj [("anyOf", .arr [])]) = .ok branchless := by cbv
  obtain ⟨stops, strict, -⟩ := only_depth_stops .standard (Int.le_refl 1) hs ht
  exact ⟨Int.le_refl 1, hs, ht, stops, strict⟩

end Comparison

end SchemaDrift
