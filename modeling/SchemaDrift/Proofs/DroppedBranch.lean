import SchemaDrift.Proofs.KindChanges
import SchemaDrift.Proofs.Weight

/-!
# A branch is dropped

A branch that has no partner is aligned with the schema that admits nothing. The kinds of an aligned
pair are not compared, and all rules of the branch count as dropped, which is harmless. So whether
dropping one of several branches is called breaking does not hang on what the branch accepted, but on
its kind, and in one case on the bounds of the branch that remains.

* `Branch` is a branch of one kind with rules on numbers and strings.
* `Course.within_dropped`: whatever alignment is chosen, the branches report nothing breaking.
* `Comparison.dropped_exact` says exactly when the verdict is that dropping the branch is breaking.
* `Comparison.dropped_unsafe`: values may be lost without it.
-/

namespace SchemaDrift

open Schema

/-- A branch of one kind with rules on numbers and strings. -/
structure Branch where
  kind : Kind
  number : NumberRules
  text : StringRules

namespace Branch

def schema (b : Branch) : Schema := Facets.schema ⟨b.number, b.text, []⟩ [b.kind]

theorem schema_leaf (b : Branch) : b.schema.Leaf :=
  ⟨Facets.schema_flat _ _, split?_of_kind rfl, rfl⟩

end Branch

namespace Task

/-! ## Harmless edits -/

/-- Bounds that only disappear are harmless. -/
theorem harmless_of_unbounded {s t : Schema} (none_left : boundsOf t = .none) :
    Harmless (rangeEdits s t) := by
  intro e he
  obtain ⟨b, -, he⟩ := List.mem_flatMap.mp he
  rw [none_left, boundValue_none] at he
  rcases hx : boundValue (boundsOf s) b with _ | x
  · rw [hx] at he
    exact nomatch he
  · rw [hx] at he
    rw [List.mem_singleton.mp he]
    rfl

/-- Bounds that appear where there were none are breaking. -/
theorem unbounded_of_harmless {s t : Schema} (none_before : boundsOf s = .none)
    (h : Harmless (rangeEdits s t)) : boundsOf t = .none := by
  have absent (b : Bound) : boundValue (boundsOf t) b = none := by
    rcases hy : boundValue (boundsOf t) b with _ | y
    · rfl
    · obtain ⟨x, hx, -⟩ := bound_of_harmless h b hy
      rw [none_before, boundValue_none] at hx
      exact nomatch hx
  have minimum := absent .minimum
  have maximum := absent .maximum
  have above := absent .exclusiveMinimum
  have below := absent .exclusiveMaximum
  generalize boundsOf t = rules at minimum maximum above below
  cases rules
  simp only [boundValue] at minimum maximum above below
  rw [minimum, maximum, above, below]
  rfl

/-- The bounds of a choice are those of its only branch. -/
def lentBounds : List Schema → NumberRules
  | [s] => s.number
  | _ => .none

theorem boundsOf_choice (ss : List Schema) : boundsOf (choice ss) = lentBounds ss := by
  rcases ss with _ | ⟨s, _ | ⟨t, ss⟩⟩ <;> rfl

end Task

namespace Schema

/-! ## Branches without one of them -/

theorem typing_choice (ss : List Schema) : (choice ss).typing = branchTyping ss := rfl

variable {ss : List Schema} {k : Nat}

/-- No kind is lost exactly if other branches have all kinds of the one that is dropped. -/
theorem harmless_kinds_iff (hk : k < ss.length) :
    Task.Harmless (Task.typeEdits (choice ss) (choice (ss.eraseIdx k))) ↔
      ∀ j ∈ ss[k].typing.admitted, ∃ s ∈ ss.eraseIdx k, j ∈ s.typing.admitted := by
  rw [Task.harmless_typeEdits_iff, typing_choice, typing_choice]
  simp only [mem_branchTyping]
  have arranged := List.getElem_cons_eraseIdx_perm hk
  constructor
  · exact fun kept j hj => kept j ⟨ss[k], List.getElem_mem hk, hj⟩
  · rintro kept j ⟨s, hs, hj⟩
    rcases List.mem_cons.mp (arranged.mem_iff.mpr hs) with rfl | hs
    · exact kept j hj
    · exact ⟨s, hs, hj⟩

/-- The bounds that a choice appears to have are edited harmlessly, unless there are two branches
and the one that remains has bounds. -/
theorem harmless_bounds_iff (hk : k < ss.length) :
    Task.Harmless (Task.rangeEdits (choice ss) (choice (ss.eraseIdx k))) ↔
      ¬(ss.length = 2 ∧ ∃ s ∈ ss.eraseIdx k, s.number ≠ .none) := by
  have sized : (ss.eraseIdx k).length + 1 = ss.length := List.length_eraseIdx_add_one hk
  have lent := Task.boundsOf_choice (ss.eraseIdx k)
  rcases remaining : ss.eraseIdx k with _ | ⟨s, _ | ⟨t, rest⟩⟩
  · rw [remaining] at lent
    exact iff_of_true (Task.harmless_of_unbounded lent) fun ⟨_, s, hs, _⟩ => nomatch hs
  · rw [remaining] at sized lent
    have none_before : Task.boundsOf (choice ss) = .none := by
      rw [Task.boundsOf_choice]
      rcases ss with _ | ⟨a, _ | ⟨b, ss⟩⟩
      · rfl
      · exact nomatch sized
      · rfl
    have lent : Task.boundsOf (choice [s]) = s.number := lent
    constructor
    · rintro harmless ⟨-, u, hu, bounded⟩
      obtain rfl := List.mem_singleton.mp hu
      exact bounded (lent.symm.trans (Task.unbounded_of_harmless none_before harmless))
    · intro unlent
      refine Task.harmless_of_unbounded (lent.trans ?_)
      by_contra bounded
      exact unlent ⟨sized.symm, s, List.mem_singleton_self s, bounded⟩
  · rw [remaining] at sized lent
    refine iff_of_true (Task.harmless_of_unbounded lent) fun ⟨two, _⟩ => ?_
    rw [two] at sized
    exact nomatch sized

theorem facetEdits_choice (ss ts : List Schema) :
    facetEdits (choice ss) (choice ts) = Task.rangeEdits (choice ss) (choice ts) :=
  (List.append_nil _).trans (List.append_nil _)

end Schema

namespace Course

open Assignment

variable {setting : Setting} {ss : List Schema} {k : Nat}

/-! ## The course of the comparison -/

theorem branches_dropped (hk : k < ss.length) :
    branches (choice ss) (choice (ss.eraseIdx k)) = (ss, ss.eraseIdx k ++ [.nothing]) := by
  have sized : (ss.eraseIdx k).length + 1 = ss.length := List.length_eraseIdx_add_one hk
  show (Comparing.fillUp (max ss.length (ss.eraseIdx k).length) ss,
    Comparing.fillUp (max ss.length (ss.eraseIdx k).length) (ss.eraseIdx k)) = _
  have longest : max ss.length (ss.eraseIdx k).length = ss.length := by omega
  have missing : ss.length - (ss.eraseIdx k).length = 1 := by omega
  rw [longest, fillUp_length, Comparing.fillUp, missing]
  rfl

theorem forall₂_set {R : Schema → Schema → Prop} {u : Schema} (self : ∀ s ∈ ss, R s s)
    (dropped : ∀ s ∈ ss, R s u) (k : Nat) : List.Forall₂ R ss (ss.set k u) := by
  induction ss generalizing k with
  | nil => exact .nil
  | cons s ss ih =>
    have rest := fun t ht => self t (List.mem_cons_of_mem s ht)
    cases k with
    | zero => exact .cons (dropped s List.mem_cons_self) (List.forall₂_same.mpr rest)
    | succ k =>
      exact .cons (self s List.mem_cons_self)
        (ih rest (fun t ht => dropped t (List.mem_cons_of_mem s ht)) k)

/-- The branches have partners that cost no more than the weight drops: all but the dropped one have
themselves. -/
theorem partners_of_dropped {levels : Nat} (leaves : ∀ s ∈ ss, s.Leaf)
    (alike : ∀ s ∈ ss, s.number.alike s.number = true) (hk : k < ss.length) :
    ∃ us, List.Forall₂ (Spent setting (levels + 1)) ss us ∧ us.Perm (ss.eraseIdx k ++ [.nothing]) :=
  ⟨ss.set k .nothing,
    forall₂_set (fun s hs => spent_self (leaves s hs) (alike s hs))
      (fun s hs => spent_nothing (leaves s hs)) k,
    (List.set_perm_cons_eraseIdx hk _).trans (List.perm_append_singleton _ _).symm⟩

/-- All that branches may be aligned with are leaves. -/
theorem leaves_dropped (leaves : ∀ s ∈ ss, s.Leaf) :
    ∀ t ∈ ss.eraseIdx k ++ [.nothing], t.Leaf := by
  intro t ht
  rcases List.mem_append.mp ht with ht | ht
  · exact leaves t (List.mem_of_mem_eraseIdx ht)
  · rw [List.mem_singleton.mp ht]
    exact leaf_nothing

/-- A comparison of branches with those that remain comes to its end. Nothing that is reported of a
pair of branches is breaking, whichever assignment of least total is chosen, and what is reported of
the choices themselves are their kinds and the bounds they appear to have. -/
theorem within_dropped (setting : Setting) (best : Optimal setting.align) (leaves : ∀ s ∈ ss, s.Leaf)
    (alike : ∀ s ∈ ss, s.number.alike s.number = true) (hk : k < ss.length) (levels : Nat)
    (path : String) :
    ∃ changes,
      within setting (levels + 2) ⟨path, choice ss, choice (ss.eraseIdx k), false⟩ =
        ⟨changes ++ (shallowEdits false (choice ss) (choice (ss.eraseIdx k))).map (Change.mk path),
          .ok ()⟩ ∧
      ∀ c ∈ changes, c.isBreaking = false := by
  let v : Visit := ⟨path, choice ss, choice (ss.eraseIdx k), false⟩
  have aligned : branchesOf setting v = (ss, ss.eraseIdx k ++ [.nothing]) :=
    (branchesOf_shallow (shallow_choice _) (shallow_choice _) (split?_choice _) (split?_choice _) path
      false).trans (branches_dropped hk)
  have tasks : tasksOf setting v = (shallowEdits false (choice ss) (choice (ss.eraseIdx k))).map
      .report :=
    tasksOf_shallow (shallow_choice _) (shallow_choice _) (split?_choice _) (split?_choice _) path
      false
  have others := leaves_dropped (k := k) leaves
  obtain ⟨costs, found⟩ : (prices (price setting (levels + 1)) (branchesOf setting v)).Completes := by
    rw [aligned]
    exact Outcome.collect_of_ok fun s hs => Outcome.collect_of_ok fun t ht =>
      ⟨_, price_leaf (leaves s hs) (others t ht)⟩
  have least := columns_least best found
  have priced := prices_eq_ok found
  rw [aligned] at priced
  have visits (w : Visit) (hw : w ∈ branchVisits setting v costs) :
      (within setting (levels + 1) w).result = .ok () ∧
        ∀ c ∈ (within setting (levels + 1) w).emitted, c.isBreaking = false := by
    unfold branchVisits at hw
    rw [aligned] at hw
    obtain ⟨⟨s, j⟩, hs, made⟩ := List.mem_filterMap.mp hw
    obtain ⟨t, ht, rfl⟩ := Option.map_eq_some_iff.mp made
    have old := leaves s (List.of_mem_zip hs).1
    have new := others t (List.mem_of_getElem? ht)
    have spent : Spent setting (levels + 1) s t :=
      spent_of_least priced
        (fun a ha b hb c cost => weight_le (leaves a ha) (others b hb) cost)
        (partners_of_dropped leaves alike hk) least hs ht
    have cost : (price setting (levels + 1) s t).result = _ := price_leaf old new
    have harmless := harmless_of_spent old new cost (spent _ cost)
    rw [within_flat old.toFlat new.toFlat old.whole new.whole]
    refine ⟨rfl, fun c hc => ?_⟩
    obtain ⟨e, he, rfl⟩ := List.mem_map.mp hc
    exact harmless e he
  obtain ⟨changes, reported, unbroken⟩ := Outcome.each_of_ok visits
  refine ⟨changes, ?_, unbroken⟩
  have listed : (tasksOf setting v).map (Job.ofTask path) =
      ((shallowEdits false (choice ss) (choice (ss.eraseIdx k))).map (Change.mk path)).map
        .report := by
    rw [tasks, List.map_map, List.map_map]
    rfl
  show within setting (levels + 1 + 1) v = _
  rw [within_of_prices found, jobs, Outcome.each_append, Outcome.each_map]
  show Outcome.andThen (.each (within setting (levels + 1)) _) (fun _ =>
    .each _ ((tasksOf setting v).map (Job.ofTask path))) = _
  rw [reported, listed, each_reports]
  rfl

end Course

namespace Comparison

/-! ## The verdict -/

theorem isEmpty_breaking_iff {changes : List Change} :
    (changes.filter Change.isBreaking).isEmpty = true ↔ ∀ c ∈ changes, c.isBreaking = false := by
  rw [List.isEmpty_iff, List.filter_eq_nil_iff]
  simp

/-- The verdict on dropping a branch hangs on the kinds of the branches and on the bounds that the
choices appear to have. -/
theorem verdict_of_dropped {ss : List Schema} {k : Nat} (limit : DepthLimit) {capacity : Nat}
    (room : 1 ≤ capacity) (leaves : ∀ s ∈ ss, s.Leaf)
    (alike : ∀ s ∈ ss, s.number.alike s.number = true) (hk : k < ss.length) :
    ∃ compatible,
      (ofRoots limit (.empty capacity) (choice ss) (choice (ss.eraseIdx k))).isBackwardCompatible =
        .ok compatible ∧
      (compatible = true ↔
        Task.Harmless (Task.typeEdits (choice ss) (choice (ss.eraseIdx k))) ∧
          Task.Harmless (Task.rangeEdits (choice ss) (choice (ss.eraseIdx k)))) := by
  obtain ⟨levels, enough⟩ : ∃ levels, limit.value = levels + 1 :=
    Nat.exists_eq_add_one.mpr limit.positive
  obtain ⟨changes, course, unbroken⟩ := Course.within_dropped
    (.ofRoots (choice ss) (choice (ss.eraseIdx k)) limit.value) Assignment.solve_optimal leaves alike
    hk levels ""
  have reported := ofRoots_of_within room (by rw [enough] at course ⊢; exact course)
  refine ⟨_, verdict_of_changes reported, ?_⟩
  rw [isEmpty_breaking_iff, Course.shallowEdits, facetEdits_choice]
  constructor
  · intro harmless
    have edits (e : Edit) (he : e ∈ Task.typeEdits (choice ss) (choice (ss.eraseIdx k)) ++
        Task.rangeEdits (choice ss) (choice (ss.eraseIdx k))) : e.isBreaking = false :=
      harmless ⟨"", e⟩ (List.mem_append_right _ (List.mem_map_of_mem he))
    exact ⟨Task.Harmless.left edits, Task.Harmless.right edits⟩
  · rintro ⟨kinds, bounds⟩ c hc
    rcases List.mem_append.mp hc with hc | hc
    · exact unbroken c hc
    · obtain ⟨e, he, rfl⟩ := List.mem_map.mp hc
      exact kinds.append bounds e he

/-- Dropping one of several branches is called breaking exactly if no other branch has one of its
kinds, or if there are two branches and the one that remains has bounds, which then count as bounds
of the whole. In particular it is called breaking if a value of a kind that no other branch has is
lost. -/
theorem dropped_exact (limit : DepthLimit) {capacity : Int} (room : 1 ≤ capacity)
    {old new : Json} {bs : List Branch} {k : Nat} (hk : k < bs.length)
    (builtOld : Schema.ofDocument old = .ok (choice (bs.map Branch.schema)))
    (builtNew : Schema.ofDocument new = .ok (choice ((bs.eraseIdx k).map Branch.schema))) :
    ∃ compatible, (ofDocuments limit capacity old new).isBackwardCompatible = .ok compatible ∧
      (compatible = false ↔
        (∃ j ∈ Typing.covered bs[k].kind, ∀ b ∈ bs.eraseIdx k, j ∉ Typing.covered b.kind) ∨
          (bs.length = 2 ∧ ∃ b ∈ bs.eraseIdx k, b.number ≠ .none)) ∧
      ∀ meaning v, bs[k].schema.Accepts meaning v →
        (∀ b ∈ bs.eraseIdx k, v.hasKind b.kind = false) → compatible = false := by
  obtain ⟨n, some_room, compared⟩ := ofDocuments_eq limit room builtOld builtNew
  have leaves : ∀ s ∈ bs.map Branch.schema, s.Leaf := by
    intro s hs
    obtain ⟨b, -, rfl⟩ := List.mem_map.mp hs
    exact b.schema_leaf
  have alike : ∀ s ∈ bs.map Branch.schema, s.number.alike s.number = true := by
    intro s hs
    obtain ⟨place, y, readAs⟩ := branches_of_document builtOld rfl s hs
    exact number_alike_of_read readAs
  have within_schemas : k < (bs.map Branch.schema).length := by
    rw [List.length_map]
    exact hk
  obtain ⟨compatible, verdict, exactly⟩ :=
    verdict_of_dropped limit some_room leaves alike within_schemas
  rw [harmless_kinds_iff within_schemas, harmless_bounds_iff within_schemas, List.eraseIdx_map,
    List.length_map] at exactly
  rw [List.eraseIdx_map] at verdict
  rw [compared]
  have breaking : compatible = false ↔
      (∃ j ∈ Typing.covered bs[k].kind, ∀ b ∈ bs.eraseIdx k, j ∉ Typing.covered b.kind) ∨
        (bs.length = 2 ∧ ∃ b ∈ bs.eraseIdx k, b.number ≠ .none) := by
    have kinds (b : Branch) : b.schema.typing.admitted = Typing.covered b.kind := rfl
    have bounds (b : Branch) : b.schema.number = b.number := rfl
    rw [← Bool.not_eq_true, exactly, List.getElem_map, kinds, not_and_or, not_not]
    simp only [List.mem_map, exists_exists_and_eq_and, kinds, bounds, not_forall, not_exists,
      not_and, exists_prop]
  refine ⟨compatible, verdict, breaking, fun meaning v accepted alone => breaking.mpr (.inl ?_)⟩
  obtain ⟨here, -, -⟩ := accepted
  obtain ⟨j, hj, has⟩ := here.kind [bs[k].kind] rfl
  obtain rfl := List.mem_singleton.mp hj
  refine ⟨bs[k].kind, Typing.mem_covered _, fun b hb covered => ?_⟩
  have shared := Json.hasKind_of_covered has covered
  rw [alone b hb] at shared
  exact nomatch shared

def shortText : Branch := ⟨.string, .none, { StringRules.none with maxLength := some 1 }⟩

def longText : Branch := ⟨.string, .none, { StringRules.none with minLength := some 5 }⟩

def anyNumber : Branch := ⟨.number, .none, .none⟩

def choiceDocument (branches : List (List (String × Json))) : Json :=
  .obj [("anyOf", .arr (branches.map .obj))]

def shortTextFields : List (String × Json) :=
  [("type", .str "string"), ("maxLength", .num (.int 1))]

def longTextFields : List (String × Json) :=
  [("type", .str "string"), ("minLength", .num (.int 5))]

def anyNumberFields : List (String × Json) := [("type", .str "number")]

/-- Numbers are lost with the only branch for them. -/
theorem dropped_exact_numbers :
    (1 : Int) ≤ 1 ∧ 1 < [shortText, anyNumber, longText].length ∧
    Schema.ofDocument (choiceDocument [shortTextFields, anyNumberFields, longTextFields]) =
      .ok (choice ([shortText, anyNumber, longText].map Branch.schema)) ∧
    Schema.ofDocument (choiceDocument [shortTextFields, longTextFields]) =
      .ok (choice (([shortText, anyNumber, longText].eraseIdx 1).map Branch.schema)) ∧
    anyNumber.schema.Accepts anyText (.num (.int 3)) ∧
    (∀ b ∈ [shortText, longText], (Json.num (.int 3)).hasKind b.kind = false) ∧
    (ofDocuments .standard 1 (choiceDocument [shortTextFields, anyNumberFields, longTextFields])
      (choiceDocument [shortTextFields, longTextFields])).isBackwardCompatible = .ok false := by
  have among : 1 < [shortText, anyNumber, longText].length := by decide
  have builtOld : Schema.ofDocument
      (choiceDocument [shortTextFields, anyNumberFields, longTextFields]) =
        .ok (choice ([shortText, anyNumber, longText].map Branch.schema)) := rfl
  have builtNew : Schema.ofDocument (choiceDocument [shortTextFields, longTextFields]) =
      .ok (choice (([shortText, anyNumber, longText].eraseIdx 1).map Branch.schema)) := rfl
  have accepted : anyNumber.schema.Accepts anyText (.num (.int 3)) := by
    refine .intro ?_ nofun nofun
    constructor
    case kind => exact fun ks hk => ⟨.number, Option.some.inj hk ▸ List.mem_cons_self, rfl⟩
    case bound =>
      intro n _ b x hx
      exact nomatch (Task.boundValue_none b).symm.trans hx
    all_goals exact nofun
  have alone : ∀ b ∈ [shortText, longText], (Json.num (.int 3)).hasKind b.kind = false := by decide
  obtain ⟨compatible, verdict, -, lost⟩ :=
    dropped_exact .standard (Int.le_refl 1) among builtOld builtNew
  rw [lost anyText _ accepted alone] at verdict
  exact ⟨Int.le_refl 1, among, builtOld, builtNew, accepted, alone, verdict⟩

/-- A text that only the dropped branch accepted is lost, and the verdict is still that the new
schema is compatible: another branch is for texts as well. -/
theorem dropped_unsafe :
    (ofDocuments .standard 1 (choiceDocument [shortTextFields, longTextFields])
      (choiceDocument [longTextFields])).isBackwardCompatible = .ok true ∧
    shortText.schema.Accepts anyText (.str "a") ∧ ¬longText.schema.Accepts anyText (.str "a") := by
  have compatible : (ofDocuments .standard 1 (choiceDocument [shortTextFields, longTextFields])
      (choiceDocument [longTextFields])).isBackwardCompatible = .ok true :=
    ok_of_toOption (by decide +kernel)
  refine ⟨compatible, .intro ?_ nofun nofun, fun accepted => ?_⟩
  · constructor
    case kind => exact fun ks hk => ⟨.string, Option.some.inj hk ▸ List.mem_cons_self, rfl⟩
    case maxLength =>
      intro text htext n hn
      obtain rfl := Json.str.inj htext
      obtain rfl := Option.some.inj hn
      decide
    all_goals exact nofun
  · obtain ⟨here, -, -⟩ := accepted
    have long : 5 ≤ "a".length := here.minLength "a" rfl 5 rfl
    exact absurd long (by decide)

end Comparison

end SchemaDrift
