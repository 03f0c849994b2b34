import SchemaDrift.Proofs.Branchless
import SchemaDrift.Proofs.Presentation

/-!
# No difference goes unreported

For schemas without branches, constants, references and rules on further properties, a comparison
that comes to its end reports nothing exactly if the two schemas have the same content. One case is
no difference by design: a rule on items that only one side has.

* `Schema.Bare` singles out these schemas; `Schema.Concur` says what having the same content is,
  `Schema.SameContent` what it asks of a pair.
* `Task.quiet_iff`: a pair reports nothing itself and goes on with pairs in a relation exactly if
  the two schemas have the same content up to that relation. There is one lemma for each rule.
* `Course.within_silent_iff` goes down the whole comparison.
* `Comparison.unreported_iff_concur` is the statement about whole comparisons.

The bounds are those of the schemas, which have been rounded when the documents were read.
-/

namespace SchemaDrift

/-! ## Schemas with the same content -/

namespace Schema

/-- A schema of at most one kind whose other rules are bounds, rules on strings, properties,
required names, items and a negation. -/
structure Bare (s : Schema) : Prop extends s.Undivided where
  const : s.const = none
  reference : s.reference = none
  additional : s.additional = none

theorem Bare.unfoldConst_eq {s : Schema} (h : s.Bare) : s.unfoldConst = s := by
  unfold unfoldConst
  rw [h.const]

theorem Bare.boundsOf_eq {s : Schema} (h : s.Bare) : Task.boundsOf s = s.number := by
  unfold Task.boundsOf
  rw [h.anyOf]

/-- What it takes for two schemas to have the same content if `R` says which of their subschemas
do. A rule on items says nothing if the other side has none. -/
structure SameContent (R : Schema → Schema → Prop) (s t : Schema) : Prop where
  kinds : ∀ k, k ∈ s.typing.admitted ↔ k ∈ t.typing.admitted
  number : s.number.alike t.number = true
  text : s.text = t.text
  required : ∀ name, name ∈ s.required ↔ name ∈ t.required
  properties : ∀ name, Option.Rel R (s.properties.lookup name) (t.properties.lookup name)
  items : ∀ a b, s.items = some a → t.items = some b → ItemsMatch R a b

theorem SameContent.mono {R S : Schema → Schema → Prop} (h : ∀ s t, R s t → S s t) {s t : Schema}
    (m : SameContent R s t) : SameContent S s t :=
  { m with
    properties := fun name => optionRel_mono (fun a b _ => h a b) (m.properties name)
    items := fun a b ha hb => (m.items a b ha hb).mono h }

/-- Two schemas have the same content: some relation holds between them that asks as much of
subschemas. -/
def Concur (s t : Schema) : Prop := ∃ R, (∀ a b, R a b → SameContent R a b) ∧ R s t

theorem concur_iff {s t : Schema} : s.Concur t ↔ SameContent Concur s t := by
  have unfold {s t : Schema} (h : s.Concur t) : SameContent Concur s t := by
    obtain ⟨R, closed, hst⟩ := h
    exact (closed s t hst).mono fun a b hab => ⟨R, closed, hab⟩
  exact ⟨unfold, fun h => ⟨SameContent Concur, fun _ _ hab => hab.mono fun _ _ => unfold, h⟩⟩

end Schema

open Schema

/-! ## Rules that report nothing -/

/-- Nothing is dropped exactly if everything is kept. -/
theorem dropped_eq_nil_iff {α : Type} [BEq α] [LawfulBEq α] {xs ys : List α} :
    (xs.filter fun x => !ys.contains x) = [] ↔ ∀ x ∈ xs, x ∈ ys := by
  rw [List.filter_eq_nil_iff]
  simp

theorem rel_beq_iff {α : Type} [BEq α] [LawfulBEq α] {x y : Option α} :
    Option.Rel (fun a b => (a == b) = true) x y ↔ x = y := by
  constructor
  · intro h
    cases h with
    | some same => rw [eq_of_beq same]
    | none => rfl
  · rintro rfl
    cases x with
    | none => exact .none
    | some a => exact .some (beq_self_eq_true a)

theorem boundsAlike_iff {a b : Option Double} :
    boundsAlike a b = true ↔
      Option.Rel (fun x y => (Number.double x).same (.double y) = true) a b := by
  refine ⟨Task.rel_of_boundsAlike, fun h => ?_⟩
  cases h with
  | some same => exact same
  | none => rfl

/-- Blocks of bounds are alike if each bound has the same value on both sides or is absent on
both. -/
theorem NumberRules.alike_iff {p q : NumberRules} :
    p.alike q = true ↔ ∀ b, Option.Rel (fun x y => (Number.double x).same (.double y) = true)
      (Task.boundValue p b) (Task.boundValue q b) := by
  unfold NumberRules.alike
  simp only [Bool.and_eq_true, boundsAlike_iff]
  constructor
  · rintro ⟨⟨⟨minimum, maximum⟩, above⟩, below⟩ b
    cases b with
    | minimum => exact minimum
    | maximum => exact maximum
    | exclusiveMinimum => exact above
    | exclusiveMaximum => exact below
  · exact fun h => ⟨⟨⟨h .minimum, h .maximum⟩, h .exclusiveMinimum⟩, h .exclusiveMaximum⟩

namespace Task

variable {s t : Schema}

theorem typeEdits_eq_nil_iff :
    typeEdits s t = [] ↔ ∀ k, k ∈ s.typing.admitted ↔ k ∈ t.typing.admitted := by
  unfold typeEdits
  simp only [List.append_eq_nil_iff, List.map_eq_nil_iff, dropped_eq_nil_iff, Typing.mem_kindSet]
  exact ⟨fun h k => ⟨h.1 k, h.2 k⟩, fun h => ⟨fun k => (h k).mp, fun k => (h k).mpr⟩⟩

theorem valueEdits_eq_nil_iff {α : Type} {agrees : α → α → Bool} {added removed : α → Edit}
    {changed : α → α → Edit} {x y : Option α} :
    valueEdits agrees added removed changed x y = [] ↔
      Option.Rel (fun a b => agrees a b = true) x y := by
  refine ⟨fun h => ?_, valueEdits_agree⟩
  rcases x with _ | a <;> rcases y with _ | b
  · exact .none
  · exact nomatch h
  · exact nomatch h
  · refine .some ?_
    by_contra differs
    unfold valueEdits at h
    dsimp only at h
    rw [if_neg differs] at h
    exact nomatch h

theorem rangeEdits_eq_nil_iff :
    rangeEdits s t = [] ↔ (boundsOf s).alike (boundsOf t) = true := by
  rw [NumberRules.alike_iff]
  unfold rangeEdits
  simp only [List.flatMap_eq_nil_iff, valueEdits_eq_nil_iff]
  exact ⟨fun h b => h b (by cases b <;> decide), fun h b _ => h b⟩

/-- Lengths are compared as integers, which tells all of them apart. -/
theorem lengths_eq_iff {m n : Option Nat} :
    ((do let a ← m; pure (a : Int)) = do let a ← n; pure (a : Int)) ↔ m = n := by
  have mapped (o : Option Nat) : (do let a ← o; pure (a : Int)) = o.map Int.ofNat := by
    cases o <;> rfl
  rw [mapped, mapped]
  exact (Option.map_injective fun _ _ => Int.ofNat.inj).eq_iff

theorem textEdits_eq_nil_iff : textEdits s t = [] ↔ s.text = t.text := by
  unfold textEdits
  simp only [List.append_eq_nil_iff, valueEdits_eq_nil_iff, rel_beq_iff, lengths_eq_iff]
  generalize s.text = p
  generalize t.text = q
  cases p
  cases q
  simp only [StringRules.mk.injEq, and_assoc]

theorem requiredEdits_eq_nil_iff :
    requiredEdits s t = [] ↔ ∀ name, name ∈ s.required ↔ name ∈ t.required := by
  unfold requiredEdits Names.without
  simp only [List.append_eq_nil_iff, List.map_eq_nil_iff, dropped_eq_nil_iff]
  exact ⟨fun h name => ⟨h.1 name, h.2 name⟩,
    fun h => ⟨fun name => (h name).mp, fun name => (h name).mpr⟩⟩

/-! ## Pairs that report nothing -/

/-- A task that reports nothing and goes on with a pair in a relation. -/
def Quiet (R : Schema → Schema → Prop) : Task → Prop
  | .report _ => False
  | .descend _ u w => R u w

variable {R : Schema → Schema → Prop}

theorem quiet_reports_iff {es : List Edit} : (∀ task ∈ es.map .report, Quiet R task) ↔ es = [] := by
  cases es with
  | nil => exact iff_of_true (List.forall_mem_nil _) rfl
  | cons e es =>
    exact ⟨fun h => (h _ List.mem_cons_self).elim, fun h => absurd h (List.cons_ne_nil e es)⟩

theorem quiet_propertyTasks_iff :
    (∀ task ∈ propertyTasks s t, Quiet R task) ↔
      ∀ name, Option.Rel R (s.properties.lookup name) (t.properties.lookup name) := by
  have dropped {xs ys : List String} {edit : String → Edit} :
      (∀ task ∈ (Names.without xs ys).map fun name => .report (edit name), Quiet R task) ↔
        ∀ name ∈ xs, name ∈ ys := by
    have listed : (Names.without xs ys).map (fun name => Task.report (edit name)) =
        ((Names.without xs ys).map edit).map .report := by
      rw [List.map_map]
      rfl
    rw [listed, quiet_reports_iff, List.map_eq_nil_iff]
    exact dropped_eq_nil_iff
  unfold propertyTasks
  simp only [List.forall_mem_append, dropped, mem_propertyNames]
  constructor
  · rintro ⟨⟨kept, known⟩, below⟩ name
    rcases left : s.properties.lookup name with _ | u <;>
      rcases right : t.properties.lookup name with _ | w
    · exact .none
    · have there := known name (by rw [right]; rfl)
      rw [left] at there
      exact nomatch there
    · have there := kept name (by rw [left]; rfl)
      rw [right] at there
      exact nomatch there
    · refine .some (below (.descend (.property name) u w) (List.mem_filterMap.mpr ⟨name, ?_, ?_⟩))
      · refine List.mem_filter.mpr ⟨mem_propertyNames.mpr (by rw [left]; rfl), ?_⟩
        rw [List.contains_iff_mem, mem_propertyNames, right]
        rfl
      · rw [left, right]
  · intro h
    refine ⟨⟨fun name => ?_, fun name => ?_⟩, fun task htask => ?_⟩
    · exact fun present => (isSome_rel (h name)).symm.trans present
    · exact fun present => (isSome_rel (h name)).trans present
    · obtain ⟨name, -, found⟩ := List.mem_filterMap.mp htask
      rcases rel_cases (h name) with ⟨left, right⟩ | ⟨u, w, left, right, related⟩
      · rw [left, right] at found
        exact nomatch found
      · rw [left, right] at found
        rw [← Option.some.inj found]
        exact related

theorem quiet_positionTasks_iff {pairs : List (Schema × Schema)} {index : Nat} :
    (∀ task ∈ positionTasks index pairs, Quiet R task) ↔ ∀ p ∈ pairs, R p.1 p.2 := by
  induction pairs generalizing index with
  | nil => exact iff_of_true (List.forall_mem_nil _) (List.forall_mem_nil _)
  | cons p rest ih =>
    rw [positionTasks, List.forall_mem_cons, List.forall_mem_cons, ih]
    rfl

theorem quiet_itemTasks_iff :
    (∀ task ∈ itemTasks s t, Quiet R task) ↔
      ∀ a b, s.items = some a → t.items = some b → ItemsMatch R a b := by
  unfold itemTasks
  rcases s.items with _ | (u | us)
  · exact iff_of_true (List.forall_mem_nil _) fun _ _ absent => nomatch absent
  · rcases t.items with _ | (w | ws)
    · exact iff_of_true (List.forall_mem_nil _) fun _ _ _ absent => nomatch absent
    · constructor
      · rintro h _ _ ⟨⟩ ⟨⟩
        exact .every (h _ List.mem_cons_self)
      · intro h task htask
        rw [List.mem_singleton.mp htask]
        cases h _ _ rfl rfl with
        | every related => exact related
    · exact ⟨fun h => (h _ List.mem_cons_self).elim, fun h => nomatch h _ _ rfl rfl⟩
  · rcases t.items with _ | (w | ws)
    · exact iff_of_true (List.forall_mem_nil _) fun _ _ _ absent => nomatch absent
    · exact ⟨fun h => (h _ List.mem_cons_self).elim, fun h => nomatch h _ _ rfl rfl⟩
    · dsimp only
      rw [List.forall_mem_append, quiet_positionTasks_iff]
      constructor
      · rintro ⟨sized, related⟩ _ _ ⟨⟩ ⟨⟩
        refine .positions (List.forall₂_iff_zip.mpr ⟨?_, fun h => related _ h⟩)
        by_contra differs
        rw [if_neg differs] at sized
        exact sized _ List.mem_cons_self
      · intro h
        cases h _ _ rfl rfl with
        | positions related =>
          rw [if_pos related.length_eq]
          exact ⟨List.forall_mem_nil _, fun p hp => (List.forall₂_iff_zip.mp related).2 hp⟩

end Task

namespace Course

open SchemaDrift.Task

variable {setting : Setting} {s t : Schema}

/-- A bare pair reports nothing itself and goes on with pairs in a relation exactly if it has the
same content up to that relation. -/
theorem quiet_iff {R : Schema → Schema → Prop} (setting : Setting) (path : String) (hs : s.Bare)
    (ht : t.Bare) :
    (∀ task ∈ tasksOf setting ⟨path, s, t, false⟩, Quiet R task) ↔ SameContent R s t := by
  have consts : constEdits s t = [] := by
    unfold constEdits
    rw [hs.const, ht.const]
  have additional : additionalTasks s t = [] := by
    unfold additionalTasks
    rw [hs.additional]
  rw [tasksOf_own hs.toUndivided ht.toUndivided hs.reference ht.reference]
  unfold Comparing.tasks facetTasks
  simp only [hs.unfoldConst_eq, ht.unfoldConst_eq, consts, additional, Bool.false_eq_true, if_false,
    List.map_nil, List.append_nil, List.forall_mem_append, quiet_reports_iff,
    quiet_propertyTasks_iff, quiet_itemTasks_iff, typeEdits_eq_nil_iff, rangeEdits_eq_nil_iff,
    requiredEdits_eq_nil_iff, textEdits_eq_nil_iff, hs.boundsOf_eq, ht.boundsOf_eq]
  constructor
  · rintro ⟨kinds, ⟨⟨⟨properties, number⟩, items⟩, required⟩, text⟩
    exact ⟨kinds, number, text, required, properties, items⟩
  · rintro ⟨kinds, number, text, required, properties, items⟩
    exact ⟨kinds, ⟨⟨⟨properties, number⟩, items⟩, required⟩, text⟩

/-- The visit to a bare pair that comes to its end reports nothing exactly if the two have the same
content. The induction is on the levels: what is reported at the pair itself is settled rule by
rule, and the pairs below are one level further down. -/
theorem within_silent_iff (levels : Nat) (path : String) (hs : s.Throughout Bare)
    (ht : t.Throughout Bare) (ended : (within setting levels ⟨path, s, t, false⟩).result = .ok ()) :
    (within setting levels ⟨path, s, t, false⟩).emitted = [] ↔ s.Concur t := by
  induction levels generalizing path s t with
  | zero => exact nomatch ended
  | succ levels ih =>
    have branchless : branchesOf setting ⟨path, s, t, false⟩ = ([], []) := by
      unfold branchesOf branches oldOf
      rw [References.follow_of_no_reference setting.old hs.here.reference, hs.here.split_eq,
        hs.here.anyOf]
    rw [within_of_branchless levels branchless] at ended ⊢
    rw [concur_iff, ← quiet_iff setting path hs.here ht.here,
      Outcome.each_emitted_eq_nil_iff ended, List.forall_mem_map]
    refine forall_congr' fun task => forall_congr' fun htask => ?_
    cases task with
    | report e => exact ⟨nofun, False.elim⟩
    | descend step u w =>
      have below := (Outcome.each_eq_ok ended (List.mem_map_of_mem htask)).1
      rw [tasksOf_own hs.here.toUndivided ht.here.toUndivided hs.here.reference
        ht.here.reference] at htask
      obtain ⟨left, right⟩ := children_of_tasks htask
      rw [hs.here.unfoldConst_eq] at left
      rw [ht.here.unfoldConst_eq] at right
      exact ih _ (hs.child left) (ht.child right) below

end Course

/-! ## Documents -/

namespace Comparison

/-- A comparison that comes to its end reports nothing exactly if the two bare schemas have the same
content. -/
theorem unreported_iff_concur (limit : DepthLimit) {capacity : Int} (room : 1 ≤ capacity)
    {old new : Json} {s t : Schema} (builtOld : Schema.ofDocument old = .ok s)
    (builtNew : Schema.ofDocument new = .ok t) (hs : s.Throughout Bare) (ht : t.Throughout Bare)
    {changes : List Change} (ended : (ofDocuments limit capacity old new).changes = .ok changes) :
    changes = [] ↔ s.Concur t := by
  obtain ⟨enough, course⟩ := course_of_changes room builtOld builtNew ended
  have course := course enough (Nat.le_refl enough)
  have silent := Course.within_silent_iff enough "" hs ht
    (show (Course.within _ enough (rootVisit s t)).result = _ by rw [course])
  rw [← rootVisit, course] at silent
  exact silent

end Comparison

end SchemaDrift
