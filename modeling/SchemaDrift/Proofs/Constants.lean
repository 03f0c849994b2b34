import SchemaDrift.Proofs.AdditionalProperties
import SchemaDrift.Proofs.Completeness
import SchemaDrift.Proofs.Transitivity

/-!
# Constants compared

A constant object is compared key by key: it becomes properties, and its fields become constants
of their own. Nothing is lost on the way, since the comparison of two constants reports something
exactly if the two are not equal. But the properties are neither required nor closed, and an empty
object inside a constant becomes the schema that admits everything. So there is a breaking change
only if something is added or changed. Where the new constant is what is left of the old one, all
changes are harmless, although the one value that the old schema accepts is refused by the new one.

* `Schema.StandsFor` says that a schema is one for a constant, at the root or further down.
* `Course.Spared` says what it takes for two constants to be reported with edits of some sort only,
  and `Course.Criterion` that a relation between constants is just that.
* `Course.within_spared_iff` goes down the whole comparison, once for every criterion.
* `Json.Remnant` says that a constant is what is left of another one.
* `Comparison.unreported_iff_equal` and `Comparison.breaking_iff_not_remnant` are the statements
  about documents, and `Comparison.remnant_unsafe` is what the second one amounts to.
-/

namespace SchemaDrift

/-! ## Equal values and what is left of them -/

namespace Json

/-- Equality, leaf by leaf and key by key. -/
theorem equal_iff {x y : Json} (distinct : x.Throughout DistinctKeys) :
    x.equal y = true ↔ Option.Rel (fun a b => a.equal b = true) x.leaf? y.leaf? ∧
      ∀ key, Option.Rel (fun a b => a.equal b = true) (x.fieldsOf.lookup key)
        (y.fieldsOf.lookup key) := by
  rcases object_or_leaf x with ⟨fs, rfl⟩ | ⟨hx, fx, kx⟩ <;>
    rcases object_or_leaf y with ⟨gs, rfl⟩ | ⟨hy, fy, ky⟩
  · exact (agree_obj_iff distinct.here).trans (and_iff_right .none).symm
  · refine iff_of_false (fun same => ky (kind_equal same).symm) fun h => ?_
    rw [hy] at h
    exact nomatch h.1
  · refine iff_of_false (fun same => kx (kind_equal same)) fun h => ?_
    rw [hx] at h
    exact nomatch h.1
  · rw [hx, hy, fx, fy]
    exact ⟨fun same => ⟨.some same, fun _ => .none⟩, fun h => by cases h.1; assumption⟩

/-- Of two equal values both are the empty object or none is. -/
theorem eq_empty_iff {x y : Json} (same : x.equal y = true) : x = .obj [] ↔ y = .obj [] := by
  constructor
  · rintro rfl
    obtain ⟨gs, rfl⟩ := Schema.obj_of_kind (kind_equal same).symm
    refine congrArg Json.obj (Fields.eq_nil_of_lookup fun name present => ?_)
    exact nomatch (isSome_rel (lookup_agree same name)).trans present
  · rintro rfl
    obtain ⟨fs, rfl⟩ := Schema.obj_of_kind (kind_equal same)
    refine congrArg Json.obj (Fields.eq_nil_of_lookup fun name present => ?_)
    exact nomatch (isSome_rel (lookup_agree same name)).symm.trans present

/-- A value is what is left of another one: the same leaf, or an object of which fields were
dropped, here and further down. Nothing at all is left of a value in the empty object. -/
inductive Remnant : Json → Json → Prop where
  | same {x y : Json} : x.kind ≠ .object → x.equal y = true → Remnant x y
  | emptied (x : Json) : Remnant x (.obj [])
  | thinned {fs gs : List (String × Json)} :
      (∀ name, (gs.lookup name).isSome → (fs.lookup name).isSome) →
      (∀ name a b, fs.lookup name = some a → gs.lookup name = some b → Remnant a b) →
      Remnant (.obj fs) (.obj gs)

/-- What is left of a value is of its kind, unless it is empty. -/
theorem Remnant.kind_eq {x y : Json} (h : x.Remnant y) (some_left : y ≠ .obj []) :
    x ≠ .obj [] ∧ x.kind = y.kind := by
  cases h with
  | same leaf same => exact ⟨fun empty => leaf (empty ▸ rfl), kind_equal same⟩
  | emptied => exact absurd rfl some_left
  | @thinned fs gs kept below =>
    refine ⟨fun empty => some_left (congrArg Json.obj ?_), rfl⟩
    obtain rfl := Json.obj.inj empty
    exact Fields.eq_nil_of_lookup fun name present => nomatch kept name present

/-- What it takes for a value to be left of another one, leaf by leaf and key by key. -/
theorem remnant_iff {x y : Json} :
    x.Remnant y ↔ (∀ b, y.leaf? = some b → ∃ a, x.leaf? = some a ∧ a.equal b = true) ∧
      (∀ name, (y.fieldsOf.lookup name).isSome → (x.fieldsOf.lookup name).isSome) ∧
      ∀ name a b, x.fieldsOf.lookup name = some a → y.fieldsOf.lookup name = some b →
        a.Remnant b := by
  constructor
  · intro left
    cases left with
    | same kx same =>
      have ky : y.kind ≠ .object := kind_equal same ▸ kx
      obtain ⟨hx, -⟩ := leaf_of_kind kx
      obtain ⟨hy, fy⟩ := leaf_of_kind ky
      rw [hx, hy, fy]
      exact ⟨fun b hb => ⟨x, rfl, Option.some.inj hb ▸ same⟩, nofun, nofun⟩
    | emptied => exact ⟨nofun, nofun, nofun⟩
    | thinned kept below => exact ⟨nofun, kept, below⟩
  · rintro ⟨leaves, kept, below⟩
    rcases y.object_or_leaf with ⟨gs, rfl⟩ | ⟨hy, -, -⟩
    · rcases x.object_or_leaf with ⟨fs, rfl⟩ | ⟨-, fx, -⟩
      · exact .thinned kept below
      · rw [fx] at kept
        obtain rfl : gs = [] := Fields.eq_nil_of_lookup fun name present => nomatch kept name present
        exact .emptied x
    · obtain ⟨a, ha, same⟩ := leaves y hy
      rcases x.object_or_leaf with ⟨fs, rfl⟩ | ⟨hx, -, kx⟩
      · exact nomatch ha
      · obtain rfl := Option.some.inj (hx.symm.trans ha)
        exact .same kx same

end Json

/-! ## The schemas of constants -/

namespace Schema

theorem ofConst_eq (x : Json) :
    ofConst x = { everything with const := x.leaf?, properties := constTable x.fieldsOf } := by
  cases x <;> rfl

theorem const_ofConst (x : Json) : (ofConst x).const = x.leaf? := by rw [ofConst_eq]

theorem lookup_ofConst (x : Json) (name : String) :
    (ofConst x).properties.lookup name = (x.fieldsOf.lookup name).map ofConst := by
  rw [ofConst_eq]
  exact lookup_constTable _ name

theorem isSome_lookup_ofConst (x : Json) (name : String) :
    ((ofConst x).properties.lookup name).isSome = (x.fieldsOf.lookup name).isSome := by
  rw [lookup_ofConst, Option.isSome_map]

/-- The effective type of a constant is its kind, except that the empty object admits
everything. -/
theorem typing_ofConst {x : Json} (h : x ≠ .obj []) : (ofConst x).typing = .single x.kind := by
  cases x with
  | obj fields =>
    rcases fields with _ | ⟨⟨name, a⟩, rest⟩
    · exact absurd rfl h
    · rfl
  | _ => rfl

/-- A schema that is compared as the one of a constant. -/
structure StandsFor (x : Json) (s : Schema) : Prop where
  undivided : s.Undivided
  reference : s.reference = none
  unfolded : s.unfoldConst = ofConst x

theorem StandsFor.ofConst (x : Json) : StandsFor x (ofConst x) where
  undivided := .ofConst x
  reference := by rw [ofConst_eq]; rfl
  unfolded := by
    refine unfoldConst_of_kind fun y hy => ?_
    rw [const_ofConst] at hy
    cases x with
    | obj fields => exact nomatch hy
    | _ => rw [← Option.some.inj hy]; exact nofun

theorem StandsFor.constant {x : Json} (distinct : x.Throughout Json.DistinctKeys) :
    StandsFor x (Comparing.constant x) where
  undivided := ⟨nofun, rfl⟩
  reference := rfl
  unfolded := by
    rcases x.object_or_leaf with ⟨fields, rfl⟩ | ⟨hx, fx, kx⟩
    · have fresh : (Fields.keys ([] ++ constTable fields)).Nodup := by
        rw [List.nil_append, keys_constTable]
        exact distinct.here
      rw [unfoldConst_of_obj (s := Comparing.constant (.obj fields)) rfl]
      show { everything with properties := Fields.putAll [] (constTable fields) } = _
      rw [Fields.putAll_of_nodup fresh, List.nil_append]
      rfl
    · rw [ofConst_eq, hx, fx]
      exact unfoldConst_of_kind fun y hy => by rw [← Option.some.inj hy]; exact kx

/-- The schema of a constant accepts what is equal to it. -/
theorem accepts_constant_iff {meaning : TextMeaning} {x v : Json} :
    (Comparing.constant x).Accepts meaning v ↔ v.equal x = true := by
  constructor
  · intro accepted
    obtain ⟨here, -, -⟩ := accepted
    exact here.const x rfl
  · refine fun same => .intro ?_ nofun nofun
    constructor
    case const => exact fun c hc => Option.some.inj hc ▸ same
    case bound => exact fun _ _ b _ hb => by cases b <;> exact nomatch hb
    all_goals exact nofun

end Schema

open Schema

/-! ## The tasks of two constants -/

namespace Task

variable {x y : Json}

theorem constEdits_eq_nil_iff {s t : Schema} :
    constEdits s t = [] ↔ Option.Rel (fun a b => a.equal b = true) s.const t.const := by
  unfold constEdits
  rcases s.const with _ | a <;> rcases t.const with _ | b
  · exact iff_of_true rfl .none
  · exact iff_of_false nofun nofun
  · exact iff_of_false nofun nofun
  · dsimp only
    split
    · next same => exact iff_of_true rfl (.some same)
    · next differs => exact iff_of_false nofun fun h => by cases h; contradiction

/-- No name is reported exactly if both sides have the same names. -/
theorem unreported_names_iff {s t : Schema} :
    (∀ e, .report e ∉ propertyTasks s t) ↔
      ∀ name, (s.properties.lookup name).isSome = (t.properties.lookup name).isSome := by
  have quiet := quiet_propertyTasks_iff (s := s) (t := t) (R := fun _ _ => True)
  simp only [optionRel_iff, implies_true, and_true] at quiet
  rw [← quiet]
  refine ⟨fun h task htask => ?_, fun h e he => h _ he⟩
  cases task with
  | report e => exact h e htask
  | descend step u w => trivial

/-- Below two constants the comparison goes on with the constants under common names. -/
theorem descend_ofConst_iff {step : Step} {u w : Schema} :
    .descend step u w ∈ propertyTasks (ofConst x) (ofConst y) ↔
      ∃ name a b, x.fieldsOf.lookup name = some a ∧ y.fieldsOf.lookup name = some b ∧
        step = .property name ∧ u = ofConst a ∧ w = ofConst b := by
  constructor
  · intro h
    obtain ⟨name, step, hu, hw⟩ := descend_of_propertyTasks h
    rw [lookup_ofConst, Option.map_eq_some_iff] at hu hw
    obtain ⟨a, ha, rfl⟩ := hu
    obtain ⟨b, hb, rfl⟩ := hw
    exact ⟨name, a, b, ha, hb, step, rfl, rfl⟩
  · rintro ⟨name, a, b, ha, hb, rfl, rfl, rfl⟩
    exact descend_property (by rw [lookup_ofConst, ha]; rfl) (by rw [lookup_ofConst, hb]; rfl)

/-- Beside kinds and leaves, constants have properties only. -/
theorem facetTasks_ofConst (x y : Json) :
    facetTasks (ofConst x) (ofConst y) = propertyTasks (ofConst x) (ofConst y) := by
  unfold facetTasks
  rw [ofConst_eq x, ofConst_eq y]
  show _ ++ [] ++ [] ++ [] ++ [] ++ [] = _
  simp only [List.append_nil]

end Task

namespace Course

open SchemaDrift.Task

variable {setting : Setting} {P : Edit → Prop} {D E : String → Json → Json → Prop} {x y : Json}
  {s t : Schema}

theorem tasksOf_constants (setting : Setting) (hs : StandsFor x s) (ht : StandsFor y t)
    (path : String) :
    tasksOf setting ⟨path, s, t, false⟩ =
      (typeEdits s t).map .report ++ (constEdits (ofConst x) (ofConst y)).map .report ++
        propertyTasks (ofConst x) (ofConst y) := by
  rw [tasksOf_own hs.undivided ht.undivided hs.reference ht.reference, Comparing.tasks,
    hs.unfolded, ht.unfolded, facetTasks_ofConst]
  rfl

theorem branchless_constants (setting : Setting) :
    Branchless setting fun s t => (∃ x, StandsFor x s) ∧ ∃ y, StandsFor y t where
  anyOf s _ hpair := by
    obtain ⟨⟨x, hs⟩, -⟩ := hpair
    rw [References.follow_of_no_reference setting.old hs.reference, hs.undivided.split_eq,
      hs.undivided.anyOf]
  below path s t step u w hpair hmem := by
    obtain ⟨⟨x, hs⟩, y, ht⟩ := hpair
    rw [tasksOf_constants setting hs ht, List.mem_append, List.mem_append] at hmem
    rcases hmem with (h | h) | h
    · exact absurd h descend_notMem_reports
    · exact absurd h descend_notMem_reports
    · obtain ⟨-, a, b, -, -, -, rfl, rfl⟩ := descend_ofConst_iff.mp h
      exact ⟨⟨a, .ofConst a⟩, b, .ofConst b⟩

/-! ## What is reported of two constants -/

/-- What it takes for two constants to be reported with edits of some sort only, beside those of
their kinds, if `D` says what it takes for two constants under a common name. -/
structure Spared (P : Edit → Prop) (D : String → Json → Json → Prop) (x y : Json) : Prop where
  leaves : ∀ e ∈ constEdits (ofConst x) (ofConst y), P e
  names : ∀ e, .report e ∈ propertyTasks (ofConst x) (ofConst y) → P e
  below : ∀ name a b, x.fieldsOf.lookup name = some a → y.fieldsOf.lookup name = some b → D name a b

theorem Spared.congr (h : ∀ name a b, x.fieldsOf.lookup name = some a →
    y.fieldsOf.lookup name = some b → (D name a b ↔ E name a b)) :
    Spared P D x y ↔ Spared P E x y := by
  constructor
  · rintro ⟨leaves, names, below⟩
    exact ⟨leaves, names, fun name a b ha hb => (h name a b ha hb).mp (below name a b ha hb)⟩
  · rintro ⟨leaves, names, below⟩
    exact ⟨leaves, names, fun name a b ha hb => (h name a b ha hb).mpr (below name a b ha hb)⟩

/-- A relation that holds between two constants exactly if they are reported with edits of some
sort only, given that it says the same of the constants under common names. -/
structure Criterion (P : Edit → Prop) (R : Json → Json → Prop) : Prop where
  spared : ∀ x y, x.Throughout Json.DistinctKeys → (Spared P (fun _ => R) x y ↔ R x y)
  kinds : ∀ x y, R x y → ∀ e ∈ typeEdits (ofConst x) (ofConst y), P e

/-- A visit to two constants that comes to its end reports edits of some sort only exactly if its
own edits are of the sort and so are those of the visits below. -/
theorem spared_succ_iff (hs : StandsFor x s) (ht : StandsFor y t) {levels : Nat} {path : String}
    (ended : (within setting (levels + 1) ⟨path, s, t, false⟩).result = .ok ()) :
    (∀ c ∈ (within setting (levels + 1) ⟨path, s, t, false⟩).emitted, P c.edit) ↔
      (∀ e ∈ typeEdits s t, P e) ∧
      Spared P (fun name a b => ∀ c ∈ (within setting levels
        ⟨path ++ (Step.property name).suffix, ofConst a, ofConst b, false⟩).emitted, P c.edit)
        x y := by
  have reported (es : List Edit) :
      (∀ task ∈ es.map Task.report,
        ∀ c ∈ ((Job.ofTask path task).outcome (within setting levels)).emitted, P c.edit) ↔
        ∀ e ∈ es, P e := by
    rw [List.forall_mem_map]
    exact forall_congr' fun _ => forall_congr' fun _ => List.forall_mem_singleton
  have course := (branchless_constants setting).within_succ levels path ⟨⟨x, hs⟩, y, ht⟩
  rw [course] at ended ⊢
  rw [Outcome.each_emitted_iff ended, List.forall_mem_map, tasksOf_constants setting hs ht,
    List.forall_mem_append, List.forall_mem_append, reported, reported]
  constructor
  · rintro ⟨⟨kinds, leaves⟩, tasks⟩
    refine ⟨kinds, leaves, fun e he => tasks _ he _ List.mem_cons_self, fun name a b ha hb => ?_⟩
    exact tasks _ (descend_ofConst_iff.mpr ⟨name, a, b, ha, hb, rfl, rfl, rfl⟩)
  · rintro ⟨kinds, leaves, names, below⟩
    refine ⟨⟨kinds, leaves⟩, fun task htask => ?_⟩
    cases task with
    | report e => exact List.forall_mem_singleton.mpr (names e htask)
    | descend step u w =>
      obtain ⟨name, a, b, ha, hb, rfl, rfl, rfl⟩ := descend_ofConst_iff.mp htask
      exact below name a b ha hb

/-- A visit to two constants that comes to its end reports edits of some sort only exactly if the
edits of their kinds are of the sort and the criterion holds. The induction is on the levels: below
the pair the kinds say nothing more, since the criterion takes care of them. -/
theorem within_spared_iff {R : Json → Json → Prop} (criterion : Criterion P R) {levels : Nat}
    {path : String} (hs : StandsFor x s) (ht : StandsFor y t)
    (distinct : x.Throughout Json.DistinctKeys)
    (ended : (within setting levels ⟨path, s, t, false⟩).result = .ok ()) :
    (∀ c ∈ (within setting levels ⟨path, s, t, false⟩).emitted, P c.edit) ↔
      (∀ e ∈ typeEdits s t, P e) ∧ R x y := by
  induction levels generalizing path x y s t with
  | zero => exact nomatch ended
  | succ levels ih =>
    rw [spared_succ_iff hs ht ended, ← criterion.spared x y distinct]
    refine and_congr_right fun _ => Spared.congr fun name a b ha hb => ?_
    have task : .descend (.property name) (ofConst a) (ofConst b) ∈
        tasksOf setting ⟨path, s, t, false⟩ := by
      rw [tasksOf_constants setting hs ht]
      exact List.mem_append_right _
        (descend_ofConst_iff.mpr ⟨name, a, b, ha, hb, rfl, rfl, rfl⟩)
    rw [ih (.ofConst a) (.ofConst b) (distinct.fieldOf ha) (task_of_within ended task).1]
    exact ⟨And.right, fun h => ⟨criterion.kinds a b h, h⟩⟩

/-! ## Two criteria -/

/-- Nothing is reported exactly if the constants are equal. -/
theorem criterion_equal : Criterion (fun _ => False) fun x y => x.equal y = true where
  spared x y distinct := by
    have rules : Spared (fun _ => False) (fun _ a b => a.equal b = true) x y ↔
        constEdits (ofConst x) (ofConst y) = [] ∧
        (∀ e, .report e ∉ propertyTasks (ofConst x) (ofConst y)) ∧
        ∀ name a b, x.fieldsOf.lookup name = some a → y.fieldsOf.lookup name = some b →
          a.equal b = true :=
      ⟨fun h => ⟨List.eq_nil_iff_forall_not_mem.mpr h.leaves, h.names, h.below⟩,
        fun h => ⟨List.eq_nil_iff_forall_not_mem.mp h.1, h.2.1, h.2.2⟩⟩
    rw [rules, Json.equal_iff distinct, constEdits_eq_nil_iff, unreported_names_iff, const_ofConst,
      const_ofConst]
    simp only [isSome_lookup_ofConst, optionRel_iff, forall_and]
  kinds x y same e he := by
    have silent : typeEdits (ofConst x) (ofConst y) = [] := by
      refine typeEdits_of_kinds ?_
      by_cases empty : y = .obj []
      · rw [(Json.eq_empty_iff same).mpr empty, empty]
      · rw [typing_ofConst empty, typing_ofConst fun h => empty ((Json.eq_empty_iff same).mp h),
          Json.kind_equal same]
    rw [silent] at he
    exact nomatch he

/-- Nothing breaking is reported exactly if the new constant is what is left of the old one. -/
theorem criterion_remnant : Criterion (fun e => e.isBreaking = false) Json.Remnant where
  spared x y _ := by
    have opened : isOpen (ofConst x) = true := by rw [ofConst_eq]; rfl
    rw [Json.remnant_iff]
    constructor
    · rintro ⟨leaves, names, below⟩
      refine ⟨fun b hb => ?_, fun name present => ?_, below⟩
      · rw [← const_ofConst] at hb ⊢
        exact const_of_harmless leaves hb
      · rw [← isSome_lookup_ofConst] at present ⊢
        exact property_of_harmless opened names present
    · rintro ⟨leaves, kept, below⟩
      refine ⟨harmless_constEdits fun b hb => ?_, fun e => ?_, below⟩
      · rw [const_ofConst] at hb ⊢
        exact leaves b hb
      · refine harmless_propertyTasks opened fun name present => ?_
        rw [isSome_lookup_ofConst] at present ⊢
        exact kept name present
  kinds x y left := by
    show Task.Harmless _
    rw [harmless_typeEdits_iff]
    intro k hk
    by_cases empty : y = .obj []
    · rw [empty]
      exact Kind.mem_all k
    · obtain ⟨nonempty, kind⟩ := left.kind_eq empty
      rwa [typing_ofConst empty, ← kind, ← typing_ofConst nonempty]

end Course

/-! ## Documents -/

namespace Comparison

open SchemaDrift.Course

def constantDocument (x : Json) : Json := .obj [("const", x)]

theorem ofDocument_constant (x : Json) :
    Schema.ofDocument (constantDocument x) = .ok (Comparing.constant x) := rfl

/-- The changes of two constants are of some sort exactly if the edits of their kinds are and the
criterion holds. -/
theorem changes_spared_iff {P : Edit → Prop} {R : Json → Json → Prop} (criterion : Criterion P R)
    {limit : DepthLimit} {capacity : Int} {x y : Json} (distinct : x.Throughout Json.DistinctKeys)
    (distinct' : y.Throughout Json.DistinctKeys) {changes : List Change}
    (ended : (ofDocuments limit capacity (constantDocument x) (constantDocument y)).changes =
      .ok changes) :
    (∀ c ∈ changes, P c.edit) ↔
      (∀ e ∈ Task.typeEdits (Comparing.constant x) (Comparing.constant y), P e) ∧ R x y := by
  have hs : StandsFor x (Comparing.constant x) := .constant distinct
  have ht : StandsFor y (Comparing.constant y) := .constant distinct'
  obtain ⟨memo, ended⟩ := ofRoots_of_changes (ofDocument_constant x) (ofDocument_constant y) ended
  have course := (changes_of_branchless memo (branchless_constants _) ⟨⟨x, hs⟩, y, ht⟩).mp ended
  have spared := within_spared_iff criterion hs ht distinct (congrArg Outcome.result course)
  rw [rootVisit] at course
  rwa [course] at spared

/-- A comparison of two constants that comes to its end reports nothing exactly if the two are
equal. -/
theorem unreported_iff_equal (limit : DepthLimit) (capacity : Int) {x y : Json}
    (distinct : x.Throughout Json.DistinctKeys) (distinct' : y.Throughout Json.DistinctKeys)
    {changes : List Change}
    (ended : (ofDocuments limit capacity (constantDocument x) (constantDocument y)).changes =
      .ok changes) :
    changes = [] ↔ x.equal y = true := by
  rw [List.eq_nil_iff_forall_not_mem]
  refine (changes_spared_iff criterion_equal distinct distinct' ended).trans ?_
  refine and_iff_right_of_imp fun same => List.eq_nil_iff_forall_not_mem.mp ?_
  have kinds : (Comparing.constant x).typing = (Comparing.constant y).typing :=
    congrArg Typing.single (Json.kind_equal same)
  exact Task.typeEdits_of_kinds (congrArg Typing.kindSet kinds)

/-- An object in a constant object, which is empty. -/
def partlyEmpty : Json := .obj [("a", .num (.int 1)), ("b", .obj [])]

/-- The same with its keys in another order and with a double for the integer. -/
def partlyEmptyReordered : Json := .obj [("b", .obj []), ("a", .num (.double (.ofInt 1)))]

/-- A comparison that reports nothing shows that the two constants are equal. -/
theorem unreported_iff_equal_reordered :
    partlyEmpty.Throughout Json.DistinctKeys ∧ partlyEmptyReordered.Throughout Json.DistinctKeys ∧
    (ofDocuments .standard standardCapacity (constantDocument partlyEmpty)
      (constantDocument partlyEmptyReordered)).changes = .ok [] ∧
    partlyEmpty.equal partlyEmptyReordered = true := by
  have distinct : partlyEmpty.Throughout Json.DistinctKeys := by
    simp [partlyEmpty, Json.DistinctKeys, Fields.keys]
  have distinct' : partlyEmptyReordered.Throughout Json.DistinctKeys := by
    simp [partlyEmptyReordered, Json.DistinctKeys, Fields.keys]
  have ended : (ofDocuments .standard standardCapacity (constantDocument partlyEmpty)
      (constantDocument partlyEmptyReordered)).changes = .ok [] :=
    changes_eq_ok_iff.mpr ⟨Option.isNone_iff_eq_none.mp (by decide +kernel),
      List.isEmpty_iff.mp (by decide +kernel)⟩
  exact ⟨distinct, distinct', ended,
    (unreported_iff_equal .standard standardCapacity distinct distinct' ended).mp rfl⟩

/-- A comparison of two constants that comes to its end reports nothing breaking exactly if the new
constant is of the same kind and what is left of the old one. -/
theorem harmless_iff_remnant {limit : DepthLimit} {capacity : Int} {x y : Json}
    (distinct : x.Throughout Json.DistinctKeys) (distinct' : y.Throughout Json.DistinctKeys)
    {changes : List Change}
    (ended : (ofDocuments limit capacity (constantDocument x) (constantDocument y)).changes =
      .ok changes) :
    (∀ c ∈ changes, c.isBreaking = false) ↔ x.kind = y.kind ∧ x.Remnant y := by
  refine (changes_spared_iff criterion_remnant distinct distinct' ended).trans ?_
  refine and_congr_left fun left => Task.harmless_typeEdits_iff.trans ?_
  have old : (Comparing.constant x).typing = .single x.kind := rfl
  have new : (Comparing.constant y).typing = .single y.kind := rfl
  rw [old, new]
  constructor
  · intro kept
    by_cases empty : y = .obj []
    · have among := kept x.kind (Typing.mem_covered x.kind)
      rw [empty] at among ⊢
      exact List.mem_singleton.mp among
    · exact (left.kind_eq empty).2
  · intro same k hk
    rwa [← same]

/-- A comparison of two constants that comes to its end reports something breaking unless the new
constant is of the same kind and what is left of the old one. -/
theorem breaking_iff_not_remnant (limit : DepthLimit) (capacity : Int) {x y : Json}
    (distinct : x.Throughout Json.DistinctKeys) (distinct' : y.Throughout Json.DistinctKeys)
    {changes : List Change}
    (ended : (ofDocuments limit capacity (constantDocument x) (constantDocument y)).changes =
      .ok changes) :
    (∃ c ∈ changes, c.isBreaking = true) ↔ ¬(x.kind = y.kind ∧ x.Remnant y) := by
  rw [← harmless_iff_remnant distinct distinct' ended]
  simp only [not_forall, Bool.not_eq_false, exists_prop]

def single : Json := .obj [("a", .num (.int 1))]

/-- The only field of a constant is dropped. The two constants are not equal, but no change is
breaking. -/
theorem breaking_iff_not_remnant_emptied :
    single.Throughout Json.DistinctKeys ∧ (Json.obj []).Throughout Json.DistinctKeys ∧
    (ofDocuments .standard standardCapacity (constantDocument single)
      (constantDocument (.obj []))).changes = .ok [⟨"", .propertyRemove true "a"⟩] ∧
    single.equal (.obj []) = false ∧
    ¬∃ c ∈ [(⟨"", .propertyRemove true "a"⟩ : Change)], c.isBreaking = true := by
  have distinct : single.Throughout Json.DistinctKeys := by
    simp [single, Json.DistinctKeys, Fields.keys]
  have distinct' : (Json.obj []).Throughout Json.DistinctKeys := by
    simp [Json.DistinctKeys, Fields.keys]
  have ended : (ofDocuments .standard standardCapacity (constantDocument single)
      (constantDocument (.obj []))).changes = .ok [⟨"", .propertyRemove true "a"⟩] := rfl
  refine ⟨distinct, distinct', ended, by decide, fun breaking => ?_⟩
  have left : single.kind = (Json.obj []).kind ∧ single.Remnant (.obj []) := ⟨rfl, .emptied single⟩
  exact (breaking_iff_not_remnant .standard standardCapacity distinct distinct' ended).mp breaking
    left

/-- A constant that lost some of its fields is found compatible, but the value that was accepted
before is refused. -/
theorem remnant_unsafe (meaning : TextMeaning) {limit : DepthLimit} {capacity : Int} {x y : Json}
    (distinct : x.Throughout Json.DistinctKeys) (distinct' : y.Throughout Json.DistinctKeys)
    (notNan : x.Throughout Json.NotNan) (kind : x.kind = y.kind) (left : x.Remnant y)
    (differs : x.equal y = false) {changes : List Change}
    (ended : (ofDocuments limit capacity (constantDocument x) (constantDocument y)).changes =
      .ok changes) :
    (ofDocuments limit capacity (constantDocument x) (constantDocument y)).isBackwardCompatible =
      .ok true ∧
    (Comparing.constant x).Accepts meaning x ∧ ¬(Comparing.constant y).Accepts meaning x := by
  have harmless := (harmless_iff_remnant distinct distinct' ended).mpr ⟨kind, left⟩
  refine ⟨?_, accepts_constant_iff.mpr (Json.equal_self x distinct notNan), fun accepted => ?_⟩
  · rw [verdict_of_changes ended, List.filter_eq_nil_iff.mpr]
    · rfl
    · exact fun c hc => Bool.eq_false_iff.mp (harmless c hc)
  · rw [accepts_constant_iff.mp accepted] at differs
    exact nomatch differs

end Comparison

end SchemaDrift
