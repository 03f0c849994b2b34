import SchemaDrift.Proofs.Schema.Agreement

/-!
# Likeness and agreement

Schemas that are alike as written need not agree: likeness takes `true` for one and `nan` for
itself. Where it does nothing of this kind to their constants, schemas that are alike agree.

* `Schema.alike_iff` says what likeness comes to, rule by rule.
* `Schema.ConstsCoincide` says that constants of two schemas are alike only if they are equal.
* `Schema.agree_of_alike` is the main statement.
-/

namespace SchemaDrift.Schema

/-! ## Lists and tables -/

section

variable {R : Schema → Schema → Prop}

theorem forall₂_of_alikeList {ss ts : List Schema} (h : alikeList ss ts = true)
    (known : ∀ s ∈ ss, ∀ t ∈ ts, s.alike t = true → R s t) : List.Forall₂ R ss ts := by
  induction ss generalizing ts with
  | nil =>
    cases ts with
    | nil => exact .nil
    | cons t ts => exact nomatch h
  | cons s ss ih =>
    cases ts with
    | nil => exact nomatch h
    | cons t ts =>
      obtain ⟨first, rest⟩ := (Bool.and_eq_true _ _).mp h
      refine .cons (known s List.mem_cons_self t List.mem_cons_self first) (ih rest ?_)
      intro u hu w hw
      exact known u (List.mem_cons_of_mem s hu) w (List.mem_cons_of_mem t hw)

theorem lookup_of_alikeTable {fs gs : List (String × Schema)} (h : alikeTable fs gs = true)
    {name : String} {u : Schema} (hu : fs.lookup name = some u) :
    ∃ w, gs.lookup name = some w ∧ u.alike w = true := by
  induction fs with
  | nil => exact nomatch hu
  | cons f rest ih =>
    obtain ⟨key, s⟩ := f
    obtain ⟨first, others⟩ := (Bool.and_eq_true _ _).mp h
    rw [Fields.lookup_cons] at hu
    split at hu
    · next same =>
      subst same
      obtain rfl := Option.some.inj hu
      split at first
      · next w hw => exact ⟨w, hw, first⟩
      · exact nomatch first
    · exact ih others hu

theorem isSome_of_namesWithin {fs gs : List (String × Schema)} (h : namesWithin fs gs = true)
    {name : String} {u : Schema} (hu : fs.lookup name = some u) : (gs.lookup name).isSome := by
  unfold namesWithin at h
  exact List.all_eq_true.mp h _ (Fields.mem_of_lookup hu)

/-- Tables that are alike have the same names. -/
theorem rel_of_alikeTable {fs gs : List (String × Schema)}
    (h : namesWithin gs fs = true ∧ alikeTable fs gs = true)
    (known : ∀ name u w, (name, u) ∈ fs → (name, w) ∈ gs → u.alike w = true → R u w)
    (name : String) : Option.Rel R (fs.lookup name) (gs.lookup name) := by
  obtain ⟨names, tables⟩ := h
  cases hf : fs.lookup name with
  | none =>
    cases hg : gs.lookup name with
    | none => exact .none
    | some w =>
      have found := isSome_of_namesWithin names hg
      rw [hf] at found
      exact nomatch found
  | some u =>
    obtain ⟨w, hg, same⟩ := lookup_of_alikeTable tables hf
    rw [hg]
    exact .some (known name u w (Fields.mem_of_lookup hf) (Fields.mem_of_lookup hg) same)

theorem rel_of_alikeOption {x y : Option Schema} (h : alikeOption x y = true)
    (known : ∀ u w, x = some u → y = some w → u.alike w = true → R u w) : Option.Rel R x y := by
  cases x with
  | none =>
    cases y with
    | none => exact .none
    | some w => exact nomatch h
  | some u =>
    cases y with
    | none => exact nomatch h
    | some w => exact .some (known u w rfl rfl h)

theorem rel_of_alikeItems {s t : Schema} (h : alikeItems s.items t.items = true)
    (known : ∀ u w, Child u s → Child w t → u.alike w = true → R u w) :
    Option.Rel (ItemsMatch R) s.items t.items := by
  rcases hs : s.items with _ | u | us <;> rcases ht : t.items with _ | w | ws <;>
    rw [hs, ht] at h
  case none.none => exact .none
  case some.every.some.every => exact .some (.every (known u w (.every hs) (.every ht) h))
  case some.positions.some.positions =>
    refine .some (.positions (forall₂_of_alikeList h fun u hu w hw => ?_))
    exact known u w (.position hs hu) (.position ht hw)
  all_goals exact nomatch h

theorem rel_of_alikeBranches {s t : Schema} (h : alikeBranches s.anyOf t.anyOf = true)
    (known : ∀ u w, Child u s → Child w t → u.alike w = true → R u w) :
    Option.Rel (BranchesMatch R) s.anyOf t.anyOf := by
  rcases hs : s.anyOf with _ | us <;> rcases ht : t.anyOf with _ | ws <;> rw [hs, ht] at h
  · exact .none
  · exact nomatch h
  · exact nomatch h
  · refine .some ⟨ws, forall₂_of_alikeList h fun u hu w hw => ?_, .refl ws⟩
    exact known u w (.branch hs hu) (.branch ht hw)

end

/-! ## Likeness rule by rule -/

abbrev IsAlike (s t : Schema) : Prop := s.alike t = true

theorem alikeList_iff {ss ts : List Schema} :
    alikeList ss ts = true ↔ List.Forall₂ IsAlike ss ts := by
  refine ⟨fun h => forall₂_of_alikeList h fun _ _ _ _ same => same, fun h => ?_⟩
  induction h with
  | nil => rfl
  | cons first _ ih => exact (Bool.and_eq_true _ _).mpr ⟨first, ih⟩

theorem alikeTable_iff {fs gs : List (String × Schema)} (distinct : (Fields.keys fs).Nodup) :
    (namesWithin gs fs = true ∧ alikeTable fs gs = true) ↔
      ∀ name, Option.Rel IsAlike (fs.lookup name) (gs.lookup name) := by
  refine ⟨fun h => rel_of_alikeTable h fun _ _ _ _ _ same => same, fun h => ⟨?_, ?_⟩⟩
  · unfold namesWithin
    rw [List.all_eq_true]
    intro g hg
    rw [isSome_rel (h g.1), Fields.lookup_isSome_iff]
    exact List.mem_map_of_mem hg
  · have paired (f : String × Schema) (hf : f ∈ fs) : ∃ t, gs.lookup f.1 = some t ∧ f.2.alike t := by
      have found := h f.1
      rw [Fields.lookup_of_mem distinct hf] at found
      rcases rel_cases found with ⟨absent, -⟩ | ⟨u, t, hu, ht, same⟩
      · exact nomatch absent
      · exact ⟨t, ht, Option.some.inj hu ▸ same⟩
    clear h distinct
    induction fs with
    | nil => rfl
    | cons f rest ih =>
      obtain ⟨t, ht, same⟩ := paired f List.mem_cons_self
      refine (Bool.and_eq_true _ _).mpr ⟨?_, ih fun g hg => paired g (List.mem_cons_of_mem f hg)⟩
      rw [ht]
      exact same

theorem alikeOption_iff {x y : Option Schema} :
    alikeOption x y = true ↔ Option.Rel IsAlike x y := by
  refine ⟨fun h => rel_of_alikeOption h fun _ _ _ _ same => same, fun h => ?_⟩
  cases h with
  | some same => exact same
  | none => rfl

theorem alikeItems_iff {x y : Option (Items Schema)} :
    alikeItems x y = true ↔ Option.Rel (ItemsMatch IsAlike) x y := by
  constructor
  · rcases x with _ | u | us <;> rcases y with _ | w | ws <;> intro h
    case none.none => exact .none
    case some.every.some.every => exact .some (.every h)
    case some.positions.some.positions => exact .some (.positions (alikeList_iff.mp h))
    all_goals exact nomatch h
  · intro h
    cases h with
    | none => rfl
    | some same =>
      cases same with
      | every same => exact same
      | positions same => exact alikeList_iff.mpr same

theorem alikeBranches_iff {x y : Option (List Schema)} :
    alikeBranches x y = true ↔ Option.Rel (List.Forall₂ IsAlike) x y := by
  constructor
  · rcases x with _ | us <;> rcases y with _ | ws <;> intro h
    · exact .none
    · exact nomatch h
    · exact nomatch h
    · exact .some (alikeList_iff.mp h)
  · intro h
    cases h with
    | none => rfl
    | some same => exact alikeList_iff.mpr same

/-- Schemas are alike if all of their rules are. -/
theorem alike_iff {s t : Schema} (properties : (Fields.keys s.properties).Nodup)
    (definitions : (Fields.keys s.definitions).Nodup) :
    s.alike t = true ↔
      s.kinds = t.kinds ∧ constAlike s.const t.const = true ∧ s.number.alike t.number = true ∧
      s.text = t.text ∧
      (∀ name, Option.Rel IsAlike (s.properties.lookup name) (t.properties.lookup name)) ∧
      s.required = t.required ∧ Option.Rel IsAlike s.additional t.additional ∧
      Option.Rel (ItemsMatch IsAlike) s.items t.items ∧
      Option.Rel (List.Forall₂ IsAlike) s.anyOf t.anyOf ∧
      Option.Rel IsAlike s.negated t.negated ∧ s.reference = t.reference ∧
      s.identifier = t.identifier ∧
      ∀ name, Option.Rel IsAlike (s.definitions.lookup name) (t.definitions.lookup name) := by
  rw [← alikeTable_iff properties, ← alikeTable_iff definitions, ← alikeOption_iff,
    ← alikeItems_iff, ← alikeBranches_iff, ← alikeOption_iff]
  -- Likeness is by recursion on the first schema, so that one has to be spelled out.
  cases s
  simp only [Schema.alike, Bool.and_eq_true, decide_eq_true_eq, and_assoc]

/-! ## Schemas -/

/-- Constants of the first schema and of the second are alike only if they are equal. -/
def ConstsCoincide (s t : Schema) : Prop :=
  ∀ u w x y, Part u s → Part w t → u.const = some x → w.const = some y → x.alike y = true →
    x.Coincide y

theorem ConstsCoincide.child {s t u w : Schema} (h : ConstsCoincide s t) (hu : Child u s)
    (hw : Child w t) : ConstsCoincide u w :=
  fun _ _ x y part part' => h _ _ x y (.inside part hu) (.inside part' hw)

theorem ConstsCoincide.const {s t : Schema} (h : ConstsCoincide s t)
    (alike : constAlike s.const t.const = true) : Option.Rel Json.Coincide s.const t.const := by
  rcases hs : s.const with _ | x <;> rcases ht : t.const with _ | y <;> rw [hs, ht] at alike
  · exact .none
  · exact nomatch alike
  · exact nomatch alike
  · exact .some (h s t x y (.whole s) (.whole t) hs ht alike)

/-- What it takes for schemas to agree is inherited by what stands in schemas that are alike. -/
theorem matches_of_alike {s t : Schema} (h : s.alike t = true ∧ ConstsCoincide s t) :
    Matches (fun u w => u.alike w = true ∧ ConstsCoincide u w) s t := by
  obtain ⟨alike, consts⟩ := h
  have known (u w : Schema) (hu : Child u s) (hw : Child w t) (alike : u.alike w = true) :
      u.alike w = true ∧ ConstsCoincide u w := ⟨alike, consts.child hu hw⟩
  have rules := alike
  rw [show s = ⟨s.kinds, s.const, s.number, s.text, s.properties, s.required, s.additional,
    s.items, s.anyOf, s.negated, s.reference, s.identifier, s.definitions⟩ by cases s; rfl,
    Schema.alike] at rules
  simp only [Bool.and_eq_true, decide_eq_true_eq] at rules
  obtain ⟨⟨⟨⟨⟨⟨⟨⟨⟨⟨⟨⟨kinds, const⟩, number⟩, text⟩, properties⟩, required⟩, additional⟩, items⟩,
    anyOf⟩, negated⟩, reference⟩, -⟩, -⟩ := rules
  constructor
  case kinds =>
    rw [kinds]
    cases t.kinds with
    | none => exact .none
    | some ks => exact .some (.refl ks)
  case const => exact consts.const const
  case number => exact number
  case text => exact text
  case properties =>
    refine rel_of_alikeTable properties fun name u w hu hw => ?_
    exact known u w (.property hu) (.property hw)
  case required => exact required
  case additional =>
    refine rel_of_alikeOption additional fun u w hu hw => ?_
    exact known u w (.additional hu) (.additional hw)
  case items => exact rel_of_alikeItems items known
  case anyOf => exact rel_of_alikeBranches anyOf known
  case negated =>
    refine rel_of_alikeOption negated fun u w hu hw => ?_
    exact known u w (.negated hu) (.negated hw)
  case reference => exact reference

/-- Schemas that are alike as written agree, if their constants are alike only where they are
equal. -/
theorem agree_of_alike {s t : Schema} (h : s.alike t = true) (consts : ConstsCoincide s t) :
    s.Agree t :=
  ⟨fun u w => u.alike w = true ∧ ConstsCoincide u w, fun _ _ => matches_of_alike, h, consts⟩

end SchemaDrift.Schema
