import SchemaDrift.Proofs.Json.Rekeyed
import SchemaDrift.Proofs.Schema.Likeness

/-!
# Schemas with their tables in another order

Two schemas may differ in the order of their tables and of the keys of their constants only. Then
they are treated alike: they have the same effective type, they stay so related when they are
rewritten or their references are followed, and each is like a third one if the other is.

* `Schema.Rekeyed` is the largest relation of this kind, `Schema.SameRules` what it asks of a pair.
* `Schema.typing_rekeyed`, `Schema.split_rekeyed`, `Schema.unfoldConst_rekeyed` and
  `References.follow_rekeyed` are what the comparison does to a schema before it looks at its rules.
* `Schema.alike_rekeyed`: likeness does not see the order on either side.
* `Schema.alike_comm`: where no name is repeated, the sides of it can be exchanged.
-/

namespace SchemaDrift

namespace Schema

/-- What it takes for two schemas to have the same rules in another order, if `R` says which of
their subschemas do. -/
structure SameRules (R : Schema → Schema → Prop) (s t : Schema) : Prop where
  kinds : s.kinds = t.kinds
  const : Option.Rel Json.Rekeyed s.const t.const
  number : s.number = t.number
  text : s.text = t.text
  properties : Fields.Tally R s.properties t.properties
  required : s.required = t.required
  additional : Option.Rel R s.additional t.additional
  items : Option.Rel (ItemsMatch R) s.items t.items
  anyOf : Option.Rel (List.Forall₂ R) s.anyOf t.anyOf
  negated : Option.Rel R s.negated t.negated
  reference : s.reference = t.reference
  identifier : s.identifier = t.identifier
  definitions : Fields.Tally R s.definitions t.definitions

theorem SameRules.mono {R S : Schema → Schema → Prop} (h : ∀ s t, R s t → S s t) {s t : Schema}
    (m : SameRules R s t) : SameRules S s t :=
  { m with
    properties := m.properties.mono h
    additional := optionRel_mono (fun a b _ => h a b) m.additional
    items := optionRel_mono (fun _ _ _ => ItemsMatch.mono h) m.items
    anyOf := optionRel_mono (fun _ _ _ paired => paired.imp h) m.anyOf
    negated := optionRel_mono (fun a b _ => h a b) m.negated
    definitions := m.definitions.mono h }

/-- Two schemas have the same rules in another order: some relation holds between them that asks as
much of subschemas. -/
def Rekeyed (s t : Schema) : Prop := ∃ R, (∀ a b, R a b → SameRules R a b) ∧ R s t

namespace Rekeyed

theorem unfold {s t : Schema} (h : Rekeyed s t) : SameRules Rekeyed s t := by
  obtain ⟨R, closed, hst⟩ := h
  exact (closed s t hst).mono fun a b hab => ⟨R, closed, hab⟩

theorem intro {s t : Schema} (m : SameRules Rekeyed s t) : Rekeyed s t :=
  ⟨SameRules Rekeyed, fun _ _ hab => hab.mono fun _ _ hcd => hcd.unfold, m⟩

end Rekeyed

theorem sameRules_everything {R : Schema → Schema → Prop} : SameRules R everything everything where
  kinds := rfl
  const := .none
  number := rfl
  text := rfl
  properties := .nil
  required := rfl
  additional := .none
  items := .none
  anyOf := .none
  negated := .none
  reference := rfl
  identifier := rfl
  definitions := .nil

theorem rekeyed_everything : everything.Rekeyed everything := .intro sameRules_everything

theorem rekeyed_nothing : nothing.Rekeyed nothing :=
  .intro { sameRules_everything with negated := .some rekeyed_everything }

/-! ## Effective types -/

theorem isUnconstrained_rekeyed {s t : Schema} (h : s.Rekeyed t) :
    s.isUnconstrained = t.isUnconstrained := by
  have m := h.unfold
  simp only [isUnconstrained, m.kinds, isNone_rel m.const, m.number, m.text,
    isEmpty_of_lookup m.properties.lookup, m.required, isNone_rel m.additional,
    isNone_rel m.items, isNone_rel m.anyOf, isNone_rel m.negated, m.reference]

theorem branchKinds_rekeyed {ss ts : List Schema} (h : List.Forall₂ Rekeyed ss ts)
    (ih : ∀ s ∈ ss, ∀ {t : Schema}, s.Rekeyed t → s.typing = t.typing) :
    branchKinds ss = branchKinds ts := by
  induction h with
  | nil => rfl
  | cons first _ ih' =>
    rw [branchKinds, branchKinds, ih _ List.mem_cons_self first,
      ih' fun s hs => ih s (List.mem_cons_of_mem _ hs)]

theorem otherTyping_rekeyed {s t : Schema} (m : SameRules Rekeyed s t)
    (ih : ∀ u, Child u s → ∀ {v : Schema}, u.Rekeyed v → u.typing = v.typing) :
    s.otherTyping = t.otherTyping := by
  unfold otherTyping
  rw [isEmpty_of_lookup m.properties.lookup]
  rcases rel_cases m.anyOf with ⟨hs, ht⟩ | ⟨ss, ts, hs, ht, paired⟩
  · rcases rel_cases m.negated with ⟨ns, nt⟩ | ⟨u, v, ns, nt, related⟩
    · rw [hs, ht, ns, nt]
    · rw [hs, ht, ns, nt]
      dsimp only
      rw [isUnconstrained_rekeyed related]
  · have kinds := branchKinds_rekeyed paired fun u hu => ih u (.branch hs hu)
    rw [hs, ht]
    dsimp only
    rw [branchTyping, branchTyping, kinds]

theorem typing_rekeyed {s t : Schema} (h : s.Rekeyed t) : s.typing = t.typing := by
  induction s using child_induction generalizing t with
  | step s ih =>
    have m := h.unfold
    rcases hs : s.kinds with _ | ks
    · have ht : t.kinds = none := m.kinds.symm.trans hs
      rw [typing_of_no_kinds hs, typing_of_no_kinds ht]
      rcases rel_cases m.const with ⟨hs, ht⟩ | ⟨x, y, hs, ht, same⟩
      · rw [hs, ht]
        exact otherTyping_rekeyed m fun u hu => ih u hu
      · rw [hs, ht]
        dsimp only
        rw [same.kind]
    · rw [typing_of_kinds hs, typing_of_kinds (m.kinds.symm.trans hs)]

/-! ## Rewritten schemas -/

theorem project_rekeyed {s t : Schema} (h : s.Rekeyed t) (k : Kind) :
    (s.project k).Rekeyed (t.project k) := by
  have m := h.unfold
  refine .intro ?_
  cases k with
  | string => exact { sameRules_everything with kinds := rfl, text := m.text }
  | number => exact { sameRules_everything with kinds := rfl, number := m.number }
  | integer => exact { sameRules_everything with kinds := rfl, number := m.number }
  | object =>
    exact { sameRules_everything with
      kinds := rfl, properties := m.properties, required := m.required
      additional := m.additional }
  | array => exact { sameRules_everything with kinds := rfl, items := m.items }
  | boolean => exact { sameRules_everything with kinds := rfl }
  | null => exact { sameRules_everything with kinds := rfl }

theorem split?_rekeyed {s t : Schema} (h : s.Rekeyed t) : Option.Rel Rekeyed s.split? t.split? := by
  unfold split?
  rw [typing_rekeyed h]
  rcases rel_cases h.unfold.anyOf with ⟨hs, ht⟩ | ⟨ss, ts, hs, ht, -⟩
  · rw [hs, ht]
    cases t.typing with
    | listed ks =>
      have paired : List.Forall₂ Rekeyed (ks.map s.project) (ks.map t.project) := by
        rw [List.forall₂_map_left_iff, List.forall₂_map_right_iff, List.forall₂_same]
        exact fun k _ => project_rekeyed h k
      exact .some (.intro { sameRules_everything with anyOf := .some paired })
    | _ => exact .none
  · rw [hs, ht]
    cases t.typing <;> exact .none

theorem split_rekeyed {s t : Schema} (h : s.Rekeyed t) : s.split.Rekeyed t.split := by
  unfold split
  rcases rel_cases (split?_rekeyed h) with ⟨hs, ht⟩ | ⟨u, v, hs, ht, related⟩
  · rw [hs, ht]
    exact h
  · rw [hs, ht]
    exact related

theorem constTable_rekeyed {fs gs : List (String × Json)} (h : Fields.Tally Json.Rekeyed fs gs)
    (related : ∀ key x, (key, x) ∈ fs → ∀ {y : Json}, x.Rekeyed y →
      (ofConst x).Rekeyed (ofConst y)) :
    Fields.Tally Rekeyed (constTable fs) (constTable gs) where
  left := by
    rw [keys_constTable]
    exact h.left
  right := by
    rw [keys_constTable]
    exact h.right
  lookup name := by
    rw [lookup_constTable, lookup_constTable]
    rcases rel_cases (h.lookup name) with ⟨hf, hg⟩ | ⟨x, y, hf, hg, same⟩
    · rw [hf, hg]
      exact .none
    · rw [hf, hg]
      exact .some (related name x (Fields.mem_of_lookup hf) same)

theorem ofConst_rekeyed {x y : Json} (h : x.Rekeyed y) : (ofConst x).Rekeyed (ofConst y) := by
  induction x using Json.parts_induction generalizing y with
  | obj fs ih =>
    obtain ⟨gs, rfl, tally⟩ := h.of_obj
    exact .intro { sameRules_everything with properties := constTable_rekeyed tally ih }
  | _ =>
    cases h
    exact .intro { sameRules_everything with const := .some (by constructor <;> assumption) }

theorem unfoldConst_rekeyed {s t : Schema} (h : s.Rekeyed t) :
    s.unfoldConst.Rekeyed t.unfoldConst := by
  have m := h.unfold
  rcases rel_cases m.const with ⟨hs, ht⟩ | ⟨x, y, hs, ht, same⟩
  · rw [unfoldConst_of_kind (by simp [hs]), unfoldConst_of_kind (by simp [ht])]
    exact h
  · by_cases object : x.kind = .object
    · obtain ⟨fs, rfl⟩ := obj_of_kind object
      obtain ⟨gs, rfl, tally⟩ := same.of_obj
      rw [unfoldConst_of_obj hs, unfoldConst_of_obj ht]
      have table := constTable_rekeyed tally fun _ _ _ => ofConst_rekeyed
      exact .intro { m with const := .none, properties := m.properties.putAll table }
    · rw [unfoldConst_of_kind (by simp [hs, object]),
        unfoldConst_of_kind (by simp [ht, ← same.kind, object])]
      exact h

/-! ## Likeness -/

theorem boundsAlike_comm (a b : Option Double) : boundsAlike a b = boundsAlike b a := by
  rcases a with _ | x <;> rcases b with _ | y
  · rfl
  · rfl
  · rfl
  · exact Number.same_comm _ _

theorem NumberRules.alike_comm (a b : NumberRules) : a.alike b = b.alike a := by
  unfold NumberRules.alike
  rw [boundsAlike_comm a.minimum, boundsAlike_comm a.maximum, boundsAlike_comm a.exclusiveMinimum,
    boundsAlike_comm a.exclusiveMaximum]

theorem constAlike_rekeyed {a b c d : Option Json} (hab : Option.Rel Json.Rekeyed a b)
    (hcd : Option.Rel Json.Rekeyed c d) : constAlike a c = constAlike b d := by
  cases hab with
  | none => cases hcd <;> rfl
  | some hxy =>
    cases hcd with
    | none => rfl
    | some hzw => exact Json.alike_rekeyed hxy hzw

/-- Neither side of a comparison as written needs its tables in order. -/
theorem alike_rekeyed {s s' t t' : Schema} (hs : s.Rekeyed s') (ht : t.Rekeyed t') :
    s.alike t = s'.alike t' := by
  induction s using child_induction generalizing s' t t' with
  | step s ih =>
    have m := hs.unfold
    have n := ht.unfold
    have same (u : Schema) (hu : Child u s) (v w z : Schema) (huv : u.Rekeyed v)
        (hwz : w.Rekeyed z) : IsAlike u w ↔ IsAlike v z := by
      rw [IsAlike, ih u hu huv hwz]
    rw [Bool.eq_iff_iff, alike_iff m.properties.left m.definitions.left,
      alike_iff m.properties.right m.definitions.right, m.kinds, n.kinds,
      constAlike_rekeyed m.const n.const, m.number, n.number, m.text, n.text, m.required,
      n.required, m.reference, n.reference, m.identifier, n.identifier]
    have properties (name : String) :
        Option.Rel IsAlike (s.properties.lookup name) (t.properties.lookup name) ↔
          Option.Rel IsAlike (s'.properties.lookup name) (t'.properties.lookup name) :=
      optionRel_congr (fun u v w z hu => same u (.property (Fields.mem_of_lookup hu)) v w z)
        (m.properties.lookup name) (n.properties.lookup name)
    have definitions (name : String) :
        Option.Rel IsAlike (s.definitions.lookup name) (t.definitions.lookup name) ↔
          Option.Rel IsAlike (s'.definitions.lookup name) (t'.definitions.lookup name) :=
      optionRel_congr (fun u v w z hu => same u (.definition (Fields.mem_of_lookup hu)) v w z)
        (m.definitions.lookup name) (n.definitions.lookup name)
    have additional : Option.Rel IsAlike s.additional t.additional ↔
        Option.Rel IsAlike s'.additional t'.additional :=
      optionRel_congr (fun u v w z hu => same u (.additional hu) v w z) m.additional n.additional
    have negated : Option.Rel IsAlike s.negated t.negated ↔
        Option.Rel IsAlike s'.negated t'.negated :=
      optionRel_congr (fun u v w z hu => same u (.negated hu) v w z) m.negated n.negated
    have anyOf : Option.Rel (List.Forall₂ IsAlike) s.anyOf t.anyOf ↔
        Option.Rel (List.Forall₂ IsAlike) s'.anyOf t'.anyOf :=
      optionRel_congr (fun us vs ws zs hus => forall₂_congr fun u v w z hu =>
        same u (.branch hus hu) v w z) m.anyOf n.anyOf
    have items : Option.Rel (ItemsMatch IsAlike) s.items t.items ↔
        Option.Rel (ItemsMatch IsAlike) s'.items t'.items := by
      refine optionRel_congr (fun a b c d ha hab hcd => ?_) m.items n.items
      cases hab with
      | every huv =>
        cases hcd with
        | every hwz =>
          have one := same _ (.every ha) _ _ _ huv hwz
          exact ⟨fun | .every h => .every (one.mp h), fun | .every h => .every (one.mpr h)⟩
        | positions => exact ⟨nofun, nofun⟩
      | positions paired =>
        cases hcd with
        | every => exact ⟨nofun, nofun⟩
        | positions paired' =>
          have all :=
            forall₂_congr (fun u v w z hu => same u (.position ha hu) v w z) paired paired'
          exact ⟨fun | .positions h => .positions (all.mp h),
            fun | .positions h => .positions (all.mpr h)⟩
    simp only [properties, definitions, additional, negated, anyOf, items]

theorem constAlike_flip {a b : Option Json} (ha : Option.Rel Json.Rekeyed a a)
    (hb : Option.Rel Json.Rekeyed b b) (h : constAlike a b = true) : constAlike b a = true := by
  rcases a with _ | x <;> rcases b with _ | y
  · rfl
  · exact nomatch h
  · exact nomatch h
  · exact Json.agree_flip Json.exchangeable_scalarAlike (rel_self ha rfl) (rel_self hb rfl) h

/-- Whatever stands in a schema without repeated names is one. -/
theorem Rekeyed.child {u s : Schema} (h : s.Rekeyed s) (hu : Child u s) : u.Rekeyed u := by
  have m := h.unfold
  cases hu with
  | property hu =>
    exact rel_self (m.properties.lookup _) (Fields.lookup_of_mem m.properties.left hu)
  | additional hu => exact rel_self m.additional hu
  | every hu =>
    cases rel_self m.items hu with
    | every same => exact same
  | position hu hmem =>
    cases rel_self m.items hu with
    | positions same => exact List.forall₂_same.mp same u hmem
  | branch hu hmem => exact List.forall₂_same.mp (rel_self m.anyOf hu) u hmem
  | negated hu => exact rel_self m.negated hu
  | definition hu =>
    exact rel_self (m.definitions.lookup _) (Fields.lookup_of_mem m.definitions.left hu)

/-- Where no name is repeated, the sides of a comparison as written can be exchanged. -/
theorem alike_flip {s t : Schema} (hs : s.Rekeyed s) (ht : t.Rekeyed t) (h : s.alike t = true) :
    t.alike s = true := by
  induction s using child_induction generalizing t with
  | step s ih =>
    have m := hs.unfold
    have n := ht.unfold
    rw [alike_iff m.properties.left m.definitions.left] at h
    rw [alike_iff n.properties.left n.definitions.left]
    obtain ⟨kinds, const, number, text, properties, required, additional, items, anyOf, negated,
      reference, identifier, definitions⟩ := h
    have flip (u w : Schema) (hu : Child u s) (hw : Child w t) (same : IsAlike u w) : IsAlike w u :=
      ih u hu (hs.child hu) (ht.child hw) same
    refine ⟨kinds.symm, constAlike_flip m.const n.const const, ?number, text.symm, ?properties,
      required.symm, ?additional, ?items, ?anyOf, ?negated, reference.symm, identifier.symm,
      ?definitions⟩
    case number => rw [NumberRules.alike_comm, number]
    case properties =>
      refine fun name => optionRel_flip (fun u w hu hw => flip u w ?_ ?_) (properties name)
      · exact .property (Fields.mem_of_lookup hu)
      · exact .property (Fields.mem_of_lookup hw)
    case additional =>
      exact optionRel_flip (fun u w hu hw => flip u w (.additional hu) (.additional hw)) additional
    case items =>
      refine optionRel_flip (fun a b ha hb same => ?_) items
      cases same with
      | every same => exact .every (flip _ _ (.every ha) (.every hb) same)
      | positions same =>
        refine .positions (forall₂_flip (fun u hu w hw => flip u w ?_ ?_) same)
        · exact .position ha hu
        · exact .position hb hw
    case anyOf =>
      refine optionRel_flip (fun us ws hus hws => forall₂_flip fun u hu w hw => ?_) anyOf
      exact flip u w (.branch hus hu) (.branch hws hw)
    case negated =>
      exact optionRel_flip (fun u w hu hw => flip u w (.negated hu) (.negated hw)) negated
    case definitions =>
      refine fun name => optionRel_flip (fun u w hu hw => flip u w ?_ ?_) (definitions name)
      · exact .definition (Fields.mem_of_lookup hu)
      · exact .definition (Fields.mem_of_lookup hw)

theorem alike_comm {s t : Schema} (hs : s.Rekeyed s) (ht : t.Rekeyed t) : s.alike t = t.alike s :=
  Bool.eq_iff_iff.mpr ⟨alike_flip hs ht, alike_flip ht hs⟩

end Schema

/-! ## References -/

/-- The references of two roots lead to the same rules in another order. -/
structure References.Rekeyed (old new : References) : Prop where
  size : old.table.length = new.table.length
  find? : ∀ r, Option.Rel Schema.Rekeyed (old.find? r) (new.find? r)

theorem References.follow_rekeyed {old new : References} (h : old.Rekeyed new) {s t : Schema}
    (hst : s.Rekeyed t) : (old.follow s).schema.Rekeyed (new.follow t).schema := by
  unfold follow
  rw [← h.size]
  exact followFrom_related (fun _ _ related => related.unfold.reference) h.find? _ [] hst

end SchemaDrift
