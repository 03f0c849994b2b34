import SchemaDrift.Proofs.Flat

/-!
# The order of the rewritings

Before two schemas are compared their lists of kinds are split up, and then their constant objects
become properties. The branches of a list of kinds keep blocks of rules only, so a constant is gone
before it can become properties. Had it become properties first, the branch for objects would have
them.

* `Schema.LosesConst` says that something is lost in this way.
* `Schema.rewritings_commute_iff`: the two orders give the same schema exactly if nothing is lost.
* `Comparison.ofRoots_const`: of schemas that are split up the comparison sees nothing of their
  constants.
-/

namespace SchemaDrift

namespace Schema

variable {s : Schema} {ks : List Kind}

/-- The constant of a schema is an object, and the declared properties do not say of each of its
fields already what the constant says. -/
def AddsProperties (s : Schema) : Prop :=
  ∃ fs name x, s.const = some (.obj fs) ∧ fs.lookup name = some x ∧
    s.properties.lookup name ≠ some (ofConst x)

/-- A schema is split up, one of the branches is for objects, and the constant would have brought
properties to it. -/
structure LosesConst (s : Schema) : Prop where
  listed : ∃ ks, s.kinds = some ks ∧ ks.length ≠ 1 ∧ .object ∈ ks
  unbranched : s.anyOf = none
  adds : s.AddsProperties

/-! ## Splitting first -/

/-- Branches have no constant. -/
theorem unfoldConst_choice (branches : List Schema) :
    (choice branches).unfoldConst = choice branches :=
  (shallow_choice branches).unfoldConst_eq

/-- Of a schema that is split up nothing is left of its constant. -/
theorem split?_const (parted : s.split?.isSome = true) (c : Option Json) :
    ({ s with const := c }).split? = s.split? := by
  obtain ⟨t, ht⟩ := Option.isSome_iff_exists.mp parted
  obtain ⟨ks, kinds, several, unbranched, rfl⟩ := split?_eq_some_iff.mp ht
  have same : ks.map ({ s with const := c }).project = ks.map s.project :=
    List.map_congr_left fun k _ => by cases k <;> rfl
  rw [ht]
  exact split?_eq_some_iff.mpr ⟨ks, kinds, several, unbranched, by rw [same]⟩

theorem split_const (parted : s.split?.isSome = true) (c : Option Json) :
    ({ s with const := c }).split = s.split := by
  unfold split
  obtain ⟨t, ht⟩ := Option.isSome_iff_exists.mp parted
  rw [split?_const parted c, ht]
  rfl

/-! ## Unfolding first -/

/-- Unfolding a constant has no effect on whether a schema is split up. -/
theorem unfoldConst_kinds (s : Schema) :
    s.unfoldConst.kinds = s.kinds ∧ s.unfoldConst.anyOf = s.anyOf := by
  unfold unfoldConst
  split <;> exact ⟨rfl, rfl⟩

theorem split?_unfoldConst (kinds : s.kinds = some ks) (several : ks.length ≠ 1)
    (unbranched : s.anyOf = none) :
    s.unfoldConst.split? = some (choice (ks.map s.unfoldConst.project)) := by
  obtain ⟨sameKinds, sameBranches⟩ := unfoldConst_kinds s
  exact split?_eq_some_iff.mpr
    ⟨ks, sameKinds.trans kinds, several, sameBranches.trans unbranched, rfl⟩

theorem split?_unfoldConst_of_whole (whole : s.split? = none) : s.unfoldConst.split? = none := by
  rcases parted : s.unfoldConst.split? with _ | t
  · rfl
  · obtain ⟨ks, kinds, several, unbranched, rfl⟩ := split?_eq_some_iff.mp parted
    obtain ⟨sameKinds, sameBranches⟩ := unfoldConst_kinds s
    have parted : s.split? = some (choice (ks.map s.project)) := split?_eq_some_iff.mpr
      ⟨ks, sameKinds.symm.trans kinds, several, sameBranches.symm.trans unbranched, rfl⟩
    exact nomatch whole.symm.trans parted

/-- Only the branch for objects has properties that come from a constant. -/
theorem project_unfoldConst_eq_iff {k : Kind} :
    s.unfoldConst.project k = s.project k ↔
      (k = .object → s.unfoldConst.properties = s.properties) := by
  have rest : s.unfoldConst.number = s.number ∧ s.unfoldConst.text = s.text ∧
      s.unfoldConst.required = s.required ∧ s.unfoldConst.additional = s.additional ∧
      s.unfoldConst.items = s.items := by
    unfold unfoldConst
    split <;> exact ⟨rfl, rfl, rfl, rfl, rfl⟩
  obtain ⟨number, text, required, additional, items⟩ := rest
  cases k with
  | object =>
    refine ⟨fun same _ => ?_, fun same => ?_⟩
    · have kept := congrArg Schema.properties same
      exact kept
    · unfold project
      rw [same rfl, required, additional]
  | _ =>
    refine ⟨fun _ h => (nomatch h), fun _ => ?_⟩
    unfold project
    simp only [number, text, items]

/-- A constant that repeats what the declared properties say adds nothing to them. -/
theorem properties_unfoldConst_eq_iff
    (distinct : ∀ fs, s.const = some (.obj fs) → (Fields.keys fs).Nodup) :
    s.unfoldConst.properties = s.properties ↔ ¬s.AddsProperties := by
  by_cases object : ∃ fs, s.const = some (.obj fs)
  · obtain ⟨fs, const⟩ := object
    have names : (Fields.keys (constTable fs)).Nodup := by
      rw [keys_constTable]
      exact distinct fs const
    rw [unfoldConst_of_obj const]
    show Fields.putAll s.properties (constTable fs) = s.properties ↔ _
    rw [Fields.putAll_eq_self_iff names]
    constructor
    · rintro settled ⟨gs, name, x, const', found, other⟩
      obtain rfl := Json.obj.inj (Option.some.inj (const.symm.trans const'))
      exact other (settled name _ (by rw [lookup_constTable, found]; rfl))
    · intro nothing name value found
      rw [lookup_constTable] at found
      obtain ⟨x, hx, rfl⟩ := Option.map_eq_some_iff.mp found
      by_contra other
      exact nothing ⟨fs, name, x, const, hx, other⟩
  · have same : s.unfoldConst = s := unfoldConst_of_kind fun x const kind => by
      obtain ⟨fs, rfl⟩ := obj_of_kind kind
      exact object ⟨fs, const⟩
    rw [same]
    exact iff_of_true rfl fun ⟨fs, _, _, const, _⟩ => object ⟨fs, const⟩

/-! ## Both orders -/

/-- The two orders agree on a schema that is split up if its branch for objects, if there is one,
gets no properties from the constant. -/
theorem commute_iff_of_listed (kinds : s.kinds = some ks) (several : ks.length ≠ 1)
    (unbranched : s.anyOf = none) :
    s.split.unfoldConst = s.unfoldConst.split ↔
      (.object ∈ ks → s.unfoldConst.properties = s.properties) := by
  have first : s.split = choice (ks.map s.project) :=
    split_eq_of_some (split?_eq_some_iff.mpr ⟨ks, kinds, several, unbranched, rfl⟩)
  have second : s.unfoldConst.split = choice (ks.map s.unfoldConst.project) :=
    split_eq_of_some (split?_unfoldConst kinds several unbranched)
  have branchwise : choice (ks.map s.project) = choice (ks.map s.unfoldConst.project) ↔
      ∀ k ∈ ks, s.unfoldConst.project k = s.project k := by
    refine ⟨fun same k hk => ?_, fun same => ?_⟩
    · have branches := Option.some.inj (congrArg Schema.anyOf same)
      exact (List.map_inj_left.mp branches k hk).symm
    · rw [List.map_congr_left fun k hk => same k hk]
  rw [first, unfoldConst_choice, second, branchwise]
  simp only [project_unfoldConst_eq_iff]
  exact ⟨fun h object => h .object object rfl, fun h k hk object => h (object ▸ hk)⟩

/-- Splitting up a list of kinds and turning a constant into properties give the same schema in
both orders, unless the schema is split up, one of its kinds is `object`, and the constant says
more than the declared properties. Splitting first, whatever constant there is makes no
difference. -/
theorem rewritings_commute_iff
    (distinct : ∀ fs, s.const = some (.obj fs) → (Fields.keys fs).Nodup) :
    (s.split.unfoldConst = s.unfoldConst.split ↔ ¬s.LosesConst) ∧
      (s.split?.isSome = true → ∀ c, ({ s with const := c }).split.unfoldConst = s.split) := by
  constructor
  · rcases parted : s.split? with _ | t
    · have same : s.split.unfoldConst = s.unfoldConst.split := by
        rw [split_eq_self parted, split_eq_self (split?_unfoldConst_of_whole parted)]
      refine iff_of_true same ?_
      rintro ⟨⟨ks, kinds, several, -⟩, unbranched, -⟩
      have split := split?_eq_some_iff.mpr ⟨ks, kinds, several, unbranched, rfl⟩
      exact nomatch parted.symm.trans split
    · obtain ⟨ks, kinds, several, unbranched, rfl⟩ := split?_eq_some_iff.mp parted
      rw [commute_iff_of_listed kinds several unbranched, properties_unfoldConst_eq_iff distinct]
      constructor
      · rintro kept ⟨⟨ls, kinds', -, object⟩, -, adds⟩
        obtain rfl := Option.some.inj (kinds.symm.trans kinds')
        exact kept object adds
      · exact fun kept object adds => kept ⟨⟨ks, kinds, several, object⟩, unbranched, adds⟩
  · intro parted c
    obtain ⟨t, ht⟩ := Option.isSome_iff_exists.mp parted
    obtain ⟨ks, -, -, -, rfl⟩ := split?_eq_some_iff.mp ht
    rw [split_const parted c, split_eq_of_some ht, unfoldConst_choice]

/-- Texts, and objects of which one property is declared to be one. -/
def levelSchema (c : Json) : Schema :=
  { everything with
    kinds := some [.string, .object]
    const := some c
    properties := [("level", { everything with const := some (.num (.int 1)) })] }

def levelDocument (c : Json) : Json :=
  .obj [("type", .arr [.str "string", .str "object"]), ("const", c),
    ("properties", .obj [("level", .obj [("const", .num (.int 1))])])]

/-- The orders agree on a constant that says no more than the declared property, and disagree on one
with a field of its own. -/
theorem rewritings_commute_iff_levels :
    ofDocument (levelDocument (.obj [("level", .num (.int 1))])) =
      .ok (levelSchema (.obj [("level", .num (.int 1))])) ∧
    (levelSchema (.obj [("level", .num (.int 1))])).split.unfoldConst =
      (levelSchema (.obj [("level", .num (.int 1))])).unfoldConst.split ∧
    ofDocument (levelDocument (.obj [("level", .num (.int 1)), ("final", .bool true)])) =
      .ok (levelSchema (.obj [("level", .num (.int 1)), ("final", .bool true)])) ∧
    (∀ fs, (levelSchema (.obj [("level", .num (.int 1)), ("final", .bool true)])).const =
      some (.obj fs) → (Fields.keys fs).Nodup) ∧
    (levelSchema (.obj [("level", .num (.int 1)), ("final", .bool true)])).LosesConst ∧
    (levelSchema (.obj [("level", .num (.int 1)), ("final", .bool true)])).split.unfoldConst ≠
      (levelSchema (.obj [("level", .num (.int 1)), ("final", .bool true)])).unfoldConst.split := by
  have distinctOne (fs : List (String × Json))
      (h : (levelSchema (.obj [("level", .num (.int 1))])).const = some (.obj fs)) :
      (Fields.keys fs).Nodup := by
    rw [← Json.obj.inj (Option.some.inj h)]
    decide
  have distinctTwo (fs : List (String × Json))
      (h : (levelSchema (.obj [("level", .num (.int 1)), ("final", .bool true)])).const =
        some (.obj fs)) : (Fields.keys fs).Nodup := by
    rw [← Json.obj.inj (Option.some.inj h)]
    decide
  have kept : ¬(levelSchema (.obj [("level", .num (.int 1))])).LosesConst := by
    rintro ⟨-, -, fs, name, x, const, found, other⟩
    rw [← Json.obj.inj (Option.some.inj const), Fields.lookup_cons] at found
    split at found
    · next same =>
      subst same
      rw [← Option.some.inj found] at other
      exact other rfl
    · exact nomatch found
  have lost : (levelSchema (.obj [("level", .num (.int 1)), ("final", .bool true)])).LosesConst :=
    ⟨⟨_, rfl, by decide, by decide⟩, rfl, _, "final", .bool true, rfl, rfl, nofun⟩
  exact ⟨rfl, (rewritings_commute_iff distinctOne).1.mpr kept, rfl, distinctTwo, lost,
    fun same => (rewritings_commute_iff distinctTwo).1.mp same lost⟩

end Schema

/-! ## What the comparison sees -/

namespace Comparing

variable {setting : Setting} {descend : Visit → Comparing Unit}
  {price : Schema → Schema → Comparing Nat}

/-- There is nothing to follow from a schema without a reference. -/
theorem follow_of_no_reference (refs : References) {s : Schema} (h : s.reference = none) :
    follow refs s = Session.done s := by
  have last : refs.follow s = ⟨[], s, none⟩ := by
    unfold References.follow References.followFrom
    rw [h]
  unfold follow
  rw [last]
  rfl

/-- Of schemas without references a visit sees only what is left after they are split up. -/
theorem visit_congr {s s' t t' : Schema} (old : s.reference = none ∧ s'.reference = none)
    (new : t.reference = none ∧ t'.reference = none) (sameOld : s.split? = s'.split?)
    (splitOld : s.split = s'.split) (sameNew : t.split? = t'.split?)
    (splitNew : t.split = t'.split) (path : String) (aligned : Bool) :
    visit setting descend price ⟨path, s, t, aligned⟩ =
      visit setting descend price ⟨path, s', t', aligned⟩ := by
  unfold visit
  dsimp only
  rw [follow_of_no_reference _ old.1, follow_of_no_reference _ old.2,
    follow_of_no_reference _ new.1, follow_of_no_reference _ new.2]
  show Session.bind (Session.done s) _ = Session.bind (Session.done s') _
  rw [Session.bind_done, Session.bind_done]
  show Session.bind (Session.done t) _ = Session.bind (Session.done t') _
  rw [Session.bind_done, Session.bind_done, sameOld, sameNew, splitOld, splitNew]

end Comparing

namespace Comparison

/-- Of roots that are split up the comparison sees nothing of their constants: whatever they are
changed to, the same is reported. -/
theorem ofRoots_const {s t : Schema} (old : s.reference = none ∧ s.split?.isSome = true)
    (new : t.reference = none ∧ t.split?.isSome = true) (limit : DepthLimit)
    (memo : Memo (String × String) Nat) (c d : Option Json) :
    ofRoots limit memo { s with const := c } { t with const := d } = ofRoots limit memo s t := by
  have course : compareWithin (.ofRoots s t limit.value) (limit.value + 1)
      ⟨"", { s with const := c }, { t with const := d }, false⟩ =
      compareWithin (.ofRoots s t limit.value) (limit.value + 1) ⟨"", s, t, false⟩ := by
    refine Comparing.visit_congr ?_ ?_ (Schema.split?_const old.2 c) (Schema.split_const old.2 c)
      (Schema.split?_const new.2 d) (Schema.split_const new.2 d) "" false
    · exact ⟨old.1, old.1⟩
    · exact ⟨new.1, new.1⟩
  have setting : Setting.ofRoots { s with const := c } { t with const := d } limit.value =
      .ofRoots s t limit.value := rfl
  unfold ofRoots
  dsimp only
  rw [setting, levelsFrom_zero, course]

/-- A constant under a list of kinds is changed, and the verdict is that the new schema is
compatible. -/
example :
    (standard (.obj [("type", .arr [.str "string", .str "object"]),
        ("const", .obj [("level", .num (.int 1))])])
      (.obj [("type", .arr [.str "string", .str "object"]),
        ("const", .obj [("level", .num (.int 2))])])).isBackwardCompatible = .ok true :=
  ok_of_toOption (by decide +kernel)

end Comparison

end SchemaDrift
