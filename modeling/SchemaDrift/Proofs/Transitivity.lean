import SchemaDrift.Proofs.Branchless
import SchemaDrift.Proofs.Compatibility
import SchemaDrift.Proofs.Relevance

/-!
# Chains of compatible schemas

If a plain schema is compatible with a second one and that with a third one, the first is compatible
with the third. The comparison of the first with the third has nothing to report that could reject
a document, and it goes nowhere where the other two did not go, so it comes to its end with the
same limit.

* `Schema.Relaxes` says that the rules of one schema are at most as strict as those of another, and
  `Schema.PlainRules.relaxes_iff_harmless` that the edits between two plain schemas tell just that.
* `Schema.Relaxes.trans` follows rule by rule.
* `Course.Harmless` is a comparison that comes to its end and reports nothing breaking,
  `Course.Harmless.trans` puts two of them together.
* `Comparison.compatible_trans` is the statement about documents.
-/

namespace SchemaDrift

open Schema

theorem Relation.lax_lax (r : Relation) : r.lax.lax = r.lax := by
  cases r <;> rfl

/-! ## Rules that become laxer -/

/-- The rules of the second schema are at most as strict as those of the first one. Schemas under
the names of both and rules on items are compared by themselves. -/
structure Schema.Relaxes (s t : Schema) : Prop where
  kinds : ∀ k ∈ s.typing.admitted, k ∈ t.typing.admitted
  const : ∀ y, t.const = some y → ∃ x, s.const = some x ∧ x.equal y = true
  bound : ∀ b y, Task.boundValue t.number b = some y →
    ∃ x, Task.boundValue s.number b = some x ∧
      Number.related b.demand.lax (.double x) (.double y) = true
  format : ∀ f, t.text.format = some f → s.text.format = some f
  pattern : ∀ p, t.text.pattern = some p → s.text.pattern = some p
  minLength : ∀ n, t.text.minLength = some n → ∃ m, s.text.minLength = some m ∧ n ≤ m
  maxLength : ∀ n, t.text.maxLength = some n → ∃ m, s.text.maxLength = some m ∧ m ≤ n
  required : ∀ name ∈ t.required, name ∈ s.required
  properties : ∀ name, (t.properties.lookup name).isSome → (s.properties.lookup name).isSome

/-- A constant of a plain schema is equal only to what has its value, and a bound that is as lax as
one that is as lax as a third one is as lax as that. -/
theorem Schema.Relaxes.trans {r s t : Schema} (plain : ∀ c, s.const = some c → PlainConst c)
    (rs : r.Relaxes s) (st : s.Relaxes t) : r.Relaxes t where
  kinds k hk := st.kinds k (rs.kinds k hk)
  const z hz := by
    obtain ⟨y, hy, yz⟩ := st.const z hz
    obtain ⟨x, hx, xy⟩ := rs.const y hy
    exact ⟨x, hx, Json.equal_of_equal (plain y hy) xy yz⟩
  bound b z hz := by
    obtain ⟨y, hy, yz⟩ := st.bound b z hz
    obtain ⟨x, hx, xy⟩ := rs.bound b y hy
    rw [← Relation.lax_lax] at yz
    exact ⟨x, hx, Number.related_trans xy yz⟩
  format f hf := rs.format f (st.format f hf)
  pattern p hp := rs.pattern p (st.pattern p hp)
  minLength n hn := by
    obtain ⟨m, hm, le⟩ := st.minLength n hn
    obtain ⟨l, hl, le'⟩ := rs.minLength m hm
    exact ⟨l, hl, Nat.le_trans le le'⟩
  maxLength n hn := by
    obtain ⟨m, hm, le⟩ := st.maxLength n hn
    obtain ⟨l, hl, le'⟩ := rs.maxLength m hm
    exact ⟨l, hl, Nat.le_trans le' le⟩
  required name hname := rs.required name (st.required name hname)
  properties name hname := rs.properties name (st.properties name hname)

/-! ## Edits of rules that become laxer -/

namespace Task

variable {s t : Schema}

/-- A constant that is there only if an equal one was there before is edited harmlessly. -/
theorem harmless_constEdits
    (h : ∀ y, t.const = some y → ∃ x, s.const = some x ∧ x.equal y = true) :
    Harmless (constEdits s t) := by
  unfold constEdits
  rcases new : t.const with _ | y
  · rcases s.const with _ | x
    · exact .nil
    · exact .singleton rfl
  · obtain ⟨x, hx, same⟩ := h y new
    rw [hx]
    dsimp only
    rw [if_pos same]
    exact .nil

/-- A rule with one value that was there before with a value that agrees or may become the new one
is edited harmlessly. -/
theorem harmless_valueEdits {α : Type} {agrees : α → α → Bool} {added removed : α → Edit}
    {changed : α → α → Edit} (lax : ∀ x, (removed x).isBreaking = false) {old new : Option α}
    (h : ∀ y, new = some y →
      ∃ x, old = some x ∧ (agrees x y = true ∨ (changed x y).isBreaking = false)) :
    Harmless (valueEdits agrees added removed changed old new) := by
  unfold valueEdits
  rcases new with _ | y
  · rcases old with _ | x
    · exact .nil
    · exact .singleton (lax x)
  · obtain ⟨x, rfl, settled⟩ := h y rfl
    dsimp only
    split
    · exact .nil
    · next differs => exact .singleton (settled.resolve_left differs)

theorem harmless_rangeEdits
    (h : ∀ b y, boundValue (boundsOf t) b = some y → ∃ x, boundValue (boundsOf s) b = some x ∧
      Number.related b.demand.lax (.double x) (.double y) = true) :
    Harmless (rangeEdits s t) := by
  intro e he
  obtain ⟨b, -, he⟩ := List.mem_flatMap.mp he
  refine harmless_valueEdits (fun _ => rfl) (fun y hy => ?_) e he
  obtain ⟨x, hx, lax⟩ := h b y hy
  refine ⟨x, hx, .inr ?_⟩
  show Range.mayShrink (rangeOf b x) (rangeOf b y) = false
  unfold Range.mayShrink rangeOf
  dsimp only
  rw [keeps?_self]
  dsimp only
  rw [lax]
  rfl

/-- A length is compared as an integer. -/
theorem lengthEdits_settled {old new : Option Nat} {R : Nat → Nat → Prop}
    {changed : Int → Int → Edit}
    (harmless : ∀ m n : Nat, R m n → (changed m n).isBreaking = false)
    (h : ∀ n, new = some n → ∃ m, old = some m ∧ R m n) {y : Int}
    (hy : (do let n ← new; pure (n : Int)) = some y) :
    ∃ x, (do let n ← old; pure (n : Int)) = some x ∧
      ((x == y) = true ∨ (changed x y).isBreaking = false) := by
  obtain ⟨n, hn, rfl⟩ := length_of_int hy
  obtain ⟨m, rfl, settled⟩ := h n hn
  exact ⟨m, rfl, .inr (harmless m n settled)⟩

theorem harmless_textEdits (h : s.Relaxes t) : Harmless (textEdits s t) := by
  refine (((harmless_valueEdits (fun _ => rfl) fun f hf => ?format).append
    (harmless_valueEdits (fun _ => rfl) fun p hp => ?pattern)).append
    (harmless_valueEdits (fun _ => rfl) fun n hn => ?minLength)).append
    (harmless_valueEdits (fun _ => rfl) fun n hn => ?maxLength)
  case format => exact ⟨f, h.format f hf, .inl (beq_self_eq_true f)⟩
  case pattern => exact ⟨p, h.pattern p hp, .inl (beq_self_eq_true p)⟩
  case minLength =>
    refine lengthEdits_settled (R := fun m n => n ≤ m) (fun m n le => ?_) h.minLength hn
    exact decide_eq_false (by omega)
  case maxLength =>
    refine lengthEdits_settled (R := fun m n => m ≤ n) (fun m n le => ?_) h.maxLength hn
    exact decide_eq_false (by omega)

theorem harmless_requiredEdits (h : ∀ name ∈ t.required, name ∈ s.required) :
    Harmless (requiredEdits s t) := by
  refine Harmless.append (fun e he => ?_) fun e he => ?_
  · obtain ⟨name, -, rfl⟩ := List.mem_map.mp he
    rfl
  · obtain ⟨name, hname, rfl⟩ := List.mem_map.mp he
    obtain ⟨fresh, absent⟩ := List.mem_filter.mp hname
    rw [List.contains_iff_mem.mpr (h name fresh)] at absent
    exact nomatch absent

theorem harmless_propertyTasks (opened : isOpen s = true)
    (h : ∀ name, (t.properties.lookup name).isSome → (s.properties.lookup name).isSome) {e : Edit}
    (he : .report e ∈ propertyTasks s t) : e.isBreaking = false := by
  unfold propertyTasks at he
  rcases List.mem_append.mp he with he | he
  · rcases List.mem_append.mp he with he | he
    · obtain ⟨name, -, made⟩ := List.mem_map.mp he
      rw [← Task.report.inj made]
      show (!isOpen s) = false
      rw [opened]
      rfl
    · rw [without_propertyNames h] at he
      exact nomatch he
  · obtain ⟨name, -, found⟩ := List.mem_filterMap.mp he
    split at found
    · exact nomatch Option.some.inj found
    · exact nomatch found

end Task

/-! ## The tasks of plain pairs -/

namespace Schema.PlainRules

open SchemaDrift.Task SchemaDrift.Course

variable {s t : Schema}

theorem additionalTasks_eq_nil (hs : s.PlainRules) : additionalTasks s t = [] := by
  unfold additionalTasks
  rw [hs.additional]

/-- Rules on items are compared if both sides have one. -/
theorem mem_itemTasks_iff (hs : s.PlainRules) (ht : t.PlainRules) {task : Task} :
    task ∈ itemTasks s t ↔ ∃ u w, s.items = some (.every u) ∧ t.items = some (.every w) ∧
      task = .descend .items u w := by
  unfold itemTasks
  rcases left : s.items with _ | rule
  · exact ⟨nofun, fun ⟨_, _, h, _⟩ => nomatch h⟩
  · obtain ⟨u, rfl⟩ := hs.one_item_rule rule left
    rcases right : t.items with _ | rule'
    · exact ⟨nofun, fun ⟨_, _, _, h, _⟩ => nomatch h⟩
    · obtain ⟨w, rfl⟩ := ht.one_item_rule rule' right
      constructor
      · exact fun h => ⟨u, w, rfl, rfl, List.mem_singleton.mp h⟩
      · rintro ⟨_, _, hu, hw, rfl⟩
        obtain rfl := Items.every.inj (Option.some.inj hu)
        obtain rfl := Items.every.inj (Option.some.inj hw)
        exact List.mem_cons_self

/-- Below a plain pair the comparison goes on with the properties of both sides and with the rules
on items of both sides. -/
theorem descend_mem_plainTasks_iff (hs : s.PlainRules) (ht : t.PlainRules) {step : Step}
    {u w : Schema} :
    .descend step u w ∈ plainTasks s t ↔
      (∃ name, step = .property name ∧ s.properties.lookup name = some u ∧
        t.properties.lookup name = some w) ∨
      step = .items ∧ s.items = some (.every u) ∧ t.items = some (.every w) := by
  constructor
  · intro h
    simp only [plainTasks, facetTasks, List.mem_append, descend_notMem_reports,
      hs.additionalTasks_eq_nil, List.not_mem_nil, or_false, false_or] at h
    rcases h with h | h
    · exact .inl (descend_of_propertyTasks h)
    · obtain ⟨_, _, hu, hw, made⟩ := (hs.mem_itemTasks_iff ht).mp h
      injection made with step left right
      subst left right
      exact .inr ⟨step, hu, hw⟩
  · rintro (⟨name, rfl, hu, hw⟩ | ⟨rfl, hu, hw⟩)
    · exact property_mem_plainTasks (descend_property hu hw)
    · exact item_mem_plainTasks (descend_items hu hw)

/-- The edits between two plain schemas are harmless exactly if the new rules are at most as
strict. -/
theorem relaxes_iff_harmless (hs : s.PlainRules) (ht : t.PlainRules) :
    s.Relaxes t ↔ ∀ e, .report e ∈ plainTasks s t → e.isBreaking = false := by
  constructor
  · intro relaxed e he
    have bounds : Harmless (rangeEdits s t) := harmless_rangeEdits fun b y hy => by
      rw [hs.boundsOf_eq]
      rw [ht.boundsOf_eq] at hy
      exact relaxed.bound b y hy
    simp only [plainTasks, facetTasks, List.mem_append, List.mem_map, Task.report.injEq,
      exists_eq_right, hs.additionalTasks_eq_nil, List.not_mem_nil, or_false] at he
    rcases he with (he | he) | (((he | he) | he) | he) | he
    · exact harmless_typeEdits_iff.mpr relaxed.kinds e he
    · exact harmless_constEdits relaxed.const e he
    · exact harmless_propertyTasks hs.isOpen relaxed.properties he
    · exact bounds e he
    · obtain ⟨_, _, _, _, made⟩ := (hs.mem_itemTasks_iff ht).mp he
      cases made
    · exact harmless_requiredEdits relaxed.required e he
    · exact harmless_textEdits relaxed e he
  · intro harmless
    have edits : Harmless (ruleEdits s t) := fun e he => harmless e (report_mem_plainTasks he)
    obtain ⟨format, pattern, minLength, maxLength⟩ := text_of_harmless edits.right
    exact {
      kinds := fun _ => typing_of_harmless edits.left.left.left.left
      const := fun _ => const_of_harmless edits.left.left.left.right
      bound := fun b y hy => by
        rw [← ht.boundsOf_eq] at hy
        rw [← hs.boundsOf_eq]
        exact lax_of_harmless edits.left.left.right b hy
      format, pattern, minLength, maxLength
      required := fun _ => required_of_harmless edits.left.right
      properties := fun _ => property_of_harmless hs.isOpen fun e he =>
        harmless e (property_mem_plainTasks he) }

end Schema.PlainRules

/-! ## Harmless comparisons -/

namespace Course

variable {setting : Setting}

/-- A visit that comes to its end and reports no breaking change. -/
def Harmless (setting : Setting) (levels : Nat) (v : Visit) : Prop :=
  (within setting levels v).result = .ok () ∧
    ∀ c ∈ (within setting levels v).emitted, c.isBreaking = false

theorem branchless_plain (setting : Setting) :
    Branchless setting fun s t => s.Plain ∧ t.Plain where
  anyOf s _ hpair := by
    rw [References.follow_of_no_reference setting.old hpair.1.rules.reference,
      hpair.1.rules.split_eq, hpair.1.rules.anyOf]
  below path s t step u w hpair hmem := by
    obtain ⟨hs, ht⟩ := hpair
    rw [tasksOf_plain setting hs.rules ht.rules,
      hs.rules.descend_mem_plainTasks_iff ht.rules] at hmem
    rcases hmem with ⟨name, -, hu, hw⟩ | ⟨-, hu, hw⟩
    · exact ⟨hs.property hu, ht.property hw⟩
    · exact ⟨hs.item hu, ht.item hw⟩

/-- The visit to a plain pair is harmless exactly if its edits are and so are the visits below. -/
theorem harmless_succ_iff {s t : Schema} (hs : s.Plain) (ht : t.Plain) (levels : Nat)
    (path : String) :
    Harmless setting (levels + 1) ⟨path, s, t, false⟩ ↔
      s.Relaxes t ∧ ∀ step u w, .descend step u w ∈ plainTasks s t →
        Harmless setting levels ⟨path ++ step.suffix, u, w, false⟩ := by
  have tasks := tasksOf_plain setting hs.rules ht.rules path
  rw [hs.rules.relaxes_iff_harmless ht.rules]
  constructor
  · rintro ⟨ended, harmless⟩
    refine ⟨fun e he => ?_, fun step u w hmem => ?_⟩
    · rw [← tasks] at he
      exact harmless ⟨path, e⟩ ((task_of_within ended he).2 _ List.mem_cons_self)
    · rw [← tasks] at hmem
      obtain ⟨below, among⟩ := task_of_within ended hmem
      exact ⟨below, fun c hc => harmless c (among c hc)⟩
  · rintro ⟨edits, below⟩
    have jobs : ∀ job ∈ (plainTasks s t).map (Job.ofTask path),
        (job.outcome (within setting levels)).result = .ok () ∧
          ∀ c ∈ (job.outcome (within setting levels)).emitted, c.isBreaking = false := by
      intro job hjob
      obtain ⟨task, htask, rfl⟩ := List.mem_map.mp hjob
      cases task with
      | report e =>
        refine ⟨rfl, fun c hc => ?_⟩
        rw [List.mem_singleton.mp hc]
        exact edits e htask
      | descend step u w => exact below step u w htask
    obtain ⟨items, course, harmless⟩ := Outcome.each_of_ok jobs
    unfold Harmless
    rw [(branchless_plain setting).within_succ levels path ⟨hs, ht⟩, tasks, course]
    exact ⟨rfl, harmless⟩

/-- Harmless visits to a first and a second and to the second and a third plain schema make for a
harmless visit to the first and the third. The induction is on the levels: wherever the third
visit goes on, the second schema has a rule between the two, so the other visits went on there. -/
theorem Harmless.trans {first second third : Setting} {levels : Nat} {r s t : Schema}
    (hr : r.Plain) (hs : s.Plain) (ht : t.Plain) {path path' : String}
    (rs : Harmless first levels ⟨path, r, s, false⟩)
    (st : Harmless second levels ⟨path', s, t, false⟩) (path'' : String) :
    Harmless third levels ⟨path'', r, t, false⟩ := by
  induction levels generalizing r s t path path' path'' with
  | zero => exact nomatch rs.1
  | succ levels ih =>
    obtain ⟨here, below⟩ := (harmless_succ_iff hr hs levels path).mp rs
    obtain ⟨here', below'⟩ := (harmless_succ_iff hs ht levels path').mp st
    refine (harmless_succ_iff hr ht levels path'').mpr ⟨here.trans hs.rules.const here', ?_⟩
    intro step u w hmem
    rcases (hr.rules.descend_mem_plainTasks_iff ht.rules).mp hmem with ⟨name, rfl, hu, hw⟩ |
      ⟨rfl, hu, hw⟩
    · obtain ⟨v, hv⟩ := Option.isSome_iff_exists.mp (here'.properties name (by rw [hw]; rfl))
      exact ih (hr.property hu) (hs.property hv) (ht.property hw)
        (below _ u v (property_mem_plainTasks (Task.descend_property hu hv)))
        (below' _ v w (property_mem_plainTasks (Task.descend_property hv hw))) _
    · obtain ⟨v, hv⟩ := hs.rules.items_of_kept ht.rules here'.kinds (by rw [hw]; rfl)
      exact ih (hr.item hu) (hs.item hv) (ht.item hw)
        (below _ u v (item_mem_plainTasks (Task.descend_items hu hv)))
        (below' _ v w (item_mem_plainTasks (Task.descend_items hv hw))) _

end Course

/-! ## Documents -/

namespace Comparison

/-- Two plain schemas are found compatible exactly if the visit to them is harmless. -/
theorem compatible_iff_harmless {s t : Schema} (hs : s.Plain) (ht : t.Plain) (limit : DepthLimit)
    (memo : Memo (String × String) Nat) :
    (ofRoots limit memo s t).isBackwardCompatible = .ok true ↔
      Course.Harmless (Setting.ofRoots s t limit.value) (limit.value + 1) (rootVisit s t) := by
  have course {changes : List Change} :
      (ofRoots limit memo s t).changes = .ok changes ↔
        Course.within (Setting.ofRoots s t limit.value) (limit.value + 1) (rootVisit s t) =
          ⟨changes, .ok ()⟩ :=
    changes_of_branchless memo (Course.branchless_plain _) ⟨hs, ht⟩
  constructor
  · intro compatible
    obtain ⟨completed, harmless⟩ := harmless_of_compatible compatible
    unfold Course.Harmless
    rw [course.mp (changes_eq_ok_iff.mpr ⟨completed, rfl⟩)]
    exact ⟨rfl, harmless⟩
  · rintro ⟨ended, harmless⟩
    rw [verdict_of_changes (course.mpr (Outcome.ext rfl ended)), List.filter_eq_nil_iff.mpr]
    · rfl
    · exact fun c hc => Bool.eq_false_iff.mp (harmless c hc)

/-- If a comparison finds a plain schema compatible with a second one, and the second one with a
third one, it finds the first compatible with the third. In particular it comes to its end. -/
theorem compatible_trans (limit : DepthLimit) {capacity : Int} (room : 1 ≤ capacity)
    {first second third : Json} {r s t : Schema} (builtFirst : Schema.ofDocument first = .ok r)
    (builtSecond : Schema.ofDocument second = .ok s) (builtThird : Schema.ofDocument third = .ok t)
    (hr : r.Plain) (hs : s.Plain) (ht : t.Plain)
    (compatible : (ofDocuments limit capacity first second).isBackwardCompatible = .ok true)
    (compatible' : (ofDocuments limit capacity second third).isBackwardCompatible = .ok true) :
    (ofDocuments limit capacity first third).isBackwardCompatible = .ok true := by
  obtain ⟨_, -, rs⟩ := ofDocuments_eq limit room builtFirst builtSecond
  obtain ⟨_, -, st⟩ := ofDocuments_eq limit room builtSecond builtThird
  obtain ⟨_, -, rt⟩ := ofDocuments_eq limit room builtFirst builtThird
  rw [rs, compatible_iff_harmless hr hs] at compatible
  rw [st, compatible_iff_harmless hs ht] at compatible'
  rw [rt, compatible_iff_harmless hr ht]
  exact compatible.trans hr hs ht compatible' ""

/-- Integers from three upwards, then numbers from two upwards, then numbers from one upwards. -/
theorem compatible_trans_statistics :
    (1 : Int) ≤ 1 ∧ Schema.ofDocument (statistics "integer" 3) = .ok (statisticsSchema .integer 3) ∧
    Schema.ofDocument (statistics "number" 2) = .ok (statisticsSchema .number 2) ∧
    Schema.ofDocument (statistics "number" 1) = .ok (statisticsSchema .number 1) ∧
    (statisticsSchema .integer 3).Plain ∧ (statisticsSchema .number 2).Plain ∧
    (statisticsSchema .number 1).Plain ∧
    (ofDocuments .standard 1 (statistics "integer" 3) (statistics "number" 2)).isBackwardCompatible =
      .ok true ∧
    (ofDocuments .standard 1 (statistics "number" 2) (statistics "number" 1)).isBackwardCompatible =
      .ok true ∧
    (ofDocuments .standard 1 (statistics "integer" 3) (statistics "number" 1)).isBackwardCompatible =
      .ok true := by
  have builtFirst : Schema.ofDocument (statistics "integer" 3) = .ok (statisticsSchema .integer 3) :=
    rfl
  have builtSecond : Schema.ofDocument (statistics "number" 2) = .ok (statisticsSchema .number 2) :=
    rfl
  have builtThird : Schema.ofDocument (statistics "number" 1) = .ok (statisticsSchema .number 1) :=
    rfl
  have first := statisticsSchema_plain .integer 3 (by decide)
  have second := statisticsSchema_plain .number 2 (by decide)
  have third := statisticsSchema_plain .number 1 (by decide)
  have compatible : (ofDocuments .standard 1 (statistics "integer" 3)
      (statistics "number" 2)).isBackwardCompatible = .ok true := by
    have found : (ofDocuments .standard 1 (statistics "integer" 3)
        (statistics "number" 2)).isBackwardCompatible.toOption = some true := by decide +kernel
    exact ok_of_toOption found
  have compatible' : (ofDocuments .standard 1 (statistics "number" 2)
      (statistics "number" 1)).isBackwardCompatible = .ok true := by
    have found : (ofDocuments .standard 1 (statistics "number" 2)
        (statistics "number" 1)).isBackwardCompatible.toOption = some true := by decide +kernel
    exact ok_of_toOption found
  exact ⟨Int.le_refl 1, builtFirst, builtSecond, builtThird, first, second, third, compatible,
    compatible', compatible_trans .standard (Int.le_refl 1) builtFirst builtSecond builtThird first
      second third compatible compatible'⟩

end Comparison

end SchemaDrift
