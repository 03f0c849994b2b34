import SchemaDrift.Proofs.Schema.Agreement
import SchemaDrift.Proofs.Schema.Reads

/-!
# Documents in another order

A schema document can be written in many orders: the names of a list of kinds, the branches of
`anyOf` and the properties may stand in any order, at any depth and also inside the definitions.

* `Schema.Reordered` relates documents that differ in this way only.
* `Schema.ofDocument_reordered`: if one of them is a schema, so is the other one, and unless a
  constant contains `nan`, the two schemas and what their references lead to agree.
-/

namespace SchemaDrift.Schema

/-! ## Reordered documents -/

/-- The values of a keyword in two documents, where `R` relates the schemas in them: they are the
same up to the order of kinds, of branches or of properties. -/
inductive Rearranged (R : Json → Json → Prop) (name : String) : Json → Json → Prop where
  | same (x : Json) : Rearranged R name x x
  | kinds {xs ys : List Json} : name = "type" → xs.Perm ys → Rearranged R name (.arr xs) (.arr ys)
  | branches {xs ys zs : List Json} : name = "anyOf" → List.Forall₂ R xs zs → zs.Perm ys →
    Rearranged R name (.arr xs) (.arr ys)
  | properties {fs gs hs : List (String × Json)} : name = "properties" →
    Fields.Aligned (fun _ => R) fs hs → hs.Perm gs → Rearranged R name (.obj fs) (.obj gs)
  | schema {x y : Json} : name ∈ ["additionalProperties", "items", "not"] → R x y →
    Rearranged R name x y
  | positions {xs ys : List Json} : name = "items" → List.Forall₂ R xs ys →
    Rearranged R name (.arr xs) (.arr ys)
  | definitions {fs gs : List (String × Json)} : name ∈ ["definitions", "$defs"] →
    Fields.Aligned (fun _ => R) fs gs → Rearranged R name (.obj fs) (.obj gs)

/-- What it takes for a document to be another one in a different order, if `R` says so of the
schemas in them. -/
inductive RearrangedSchema (R : Json → Json → Prop) : Json → Json → Prop where
  | same (x : Json) : RearrangedSchema R x x
  | object {fs gs : List (String × Json)} : Fields.Aligned (Rearranged R) fs gs →
    RearrangedSchema R (.obj fs) (.obj gs)

/-- The second document is the first one in a different order: some relation holds between them
that asks as much of the schemas in them. -/
def Reordered (x y : Json) : Prop :=
  ∃ R, (∀ a b, R a b → RearrangedSchema R a b) ∧ R x y

namespace Rearranged

variable {R S : Json → Json → Prop}

theorem mono (h : ∀ x y, R x y → S x y) {name : String} {x y : Json}
    (hxy : Rearranged R name x y) : Rearranged S name x y := by
  have fields (f g : String × Json) (hfg : f.1 = g.1 ∧ R f.2 g.2) : f.1 = g.1 ∧ S f.2 g.2 :=
    ⟨hfg.1, h _ _ hfg.2⟩
  cases hxy with
  | same => exact .same x
  | kinds named arranged => exact .kinds named arranged
  | branches named paired arranged => exact .branches named (paired.imp h) arranged
  | properties named paired arranged => exact .properties named (paired.imp fields) arranged
  | schema named related => exact .schema named (h _ _ related)
  | positions named paired => exact .positions named (paired.imp h)
  | definitions named paired => exact .definitions named (paired.imp fields)

end Rearranged

namespace Reordered

theorem refl (x : Json) : Reordered x x := ⟨Eq, fun a _ h => h ▸ .same a, rfl⟩

theorem unfold {x y : Json} (h : Reordered x y) : RearrangedSchema Reordered x y := by
  obtain ⟨R, closed, hxy⟩ := h
  cases closed x y hxy with
  | same => exact .same x
  | object aligned =>
    exact .object (aligned.imp fun f g hfg =>
      ⟨hfg.1, hfg.2.mono fun a b hab => ⟨R, closed, hab⟩⟩)

/-- Two objects are in a different order if their keywords are. -/
theorem object {fs gs : List (String × Json)} (h : Fields.Aligned (Rearranged Reordered) fs gs) :
    Reordered (.obj fs) (.obj gs) := by
  refine ⟨RearrangedSchema Reordered, fun a b hab => ?_, .object h⟩
  cases hab with
  | same => exact .same a
  | object aligned =>
    exact .object (aligned.imp fun f g hfg => ⟨hfg.1, hfg.2.mono fun c d hcd => hcd.unfold⟩)

end Reordered

/-! ## Single keywords -/

namespace Rearranged

variable {name : String} {x y : Json}

theorem aligned_refl (fs : List (String × Json)) : Fields.Aligned (fun _ => Reordered) fs fs :=
  List.forall₂_same.mpr fun f _ => ⟨rfl, .refl f.2⟩

theorem list_refl (xs : List Json) : List.Forall₂ Reordered xs xs :=
  List.forall₂_same.mpr fun x _ => .refl x

/-- No other keyword has values whose order does not matter. -/
theorem elsewhere {R : Json → Json → Prop} (h : Rearranged R name x y)
    (other : name ∉ structuralKeywords) : x = y := by
  simp only [structuralKeywords, List.mem_cons, List.not_mem_nil, or_false, not_or] at other
  cases h with
  | same => rfl
  | kinds named => exact absurd named other.1
  | branches named => exact absurd named other.2.1
  | properties named => exact absurd named other.2.2.1
  | schema named =>
    simp only [List.mem_cons, List.not_mem_nil, or_false] at named
    simp [other] at named
  | positions named => exact absurd named other.2.2.2.2.1
  | definitions named =>
    simp only [List.mem_cons, List.not_mem_nil, or_false] at named
    simp [other] at named

theorem of_type (h : Rearranged Reordered "type" x y) :
    x = y ∨ ∃ xs ys, x = .arr xs ∧ y = .arr ys ∧ xs.Perm ys := by
  cases h with
  | same => exact .inl rfl
  | kinds _ arranged => exact .inr ⟨_, _, rfl, rfl, arranged⟩
  | branches named => exact absurd named (by decide)
  | properties named => exact absurd named (by decide)
  | schema named => exact absurd named (by decide)
  | positions named => exact absurd named (by decide)
  | definitions named => exact absurd named (by decide)

theorem of_anyOf {xs : List Json} (h : Rearranged Reordered "anyOf" (.arr xs) y) :
    ∃ ys zs, y = .arr ys ∧ List.Forall₂ Reordered xs zs ∧ zs.Perm ys := by
  cases h with
  | same => exact ⟨xs, xs, rfl, list_refl xs, .refl xs⟩
  | branches _ paired arranged => exact ⟨_, _, rfl, paired, arranged⟩
  | kinds named => exact absurd named (by decide)
  | schema named => exact absurd named (by decide)
  | positions named => exact absurd named (by decide)

theorem of_properties {fs : List (String × Json)}
    (h : Rearranged Reordered "properties" (.obj fs) y) :
    ∃ gs hs, y = .obj gs ∧ Fields.Aligned (fun _ => Reordered) fs hs ∧ hs.Perm gs := by
  cases h with
  | same => exact ⟨fs, fs, rfl, aligned_refl fs, .refl fs⟩
  | properties _ paired arranged => exact ⟨_, _, rfl, paired, arranged⟩
  | schema named => exact absurd named (by decide)
  | definitions named => exact absurd named (by decide)

theorem of_schema (one : name ∈ ["additionalProperties", "not"])
    (h : Rearranged Reordered name x y) : Reordered x y := by
  simp only [List.mem_cons, List.not_mem_nil, or_false] at one
  cases h with
  | same => exact .refl x
  | schema _ related => exact related
  | _ => rcases one with rfl | rfl <;> simp_all

theorem of_items (h : Rearranged Reordered "items" x y) :
    (∃ xs ys, x = .arr xs ∧ y = .arr ys ∧ List.Forall₂ Reordered xs ys) ∨
      Reordered x y ∧ (∀ xs, x ≠ .arr xs) ∧ ∀ ys, y ≠ .arr ys := by
  cases h with
  | same =>
    cases x with
    | arr xs => exact .inl ⟨xs, xs, rfl, rfl, list_refl xs⟩
    | _ => exact .inr ⟨.refl _, nofun, nofun⟩
  | schema _ related =>
    cases related.unfold with
    | same =>
      cases x with
      | arr xs => exact .inl ⟨xs, xs, rfl, rfl, list_refl xs⟩
      | _ => exact .inr ⟨.refl _, nofun, nofun⟩
    | object => exact .inr ⟨related, nofun, nofun⟩
  | positions _ paired => exact .inl ⟨_, _, rfl, rfl, paired⟩
  | kinds named => exact absurd named (by decide)
  | branches named => exact absurd named (by decide)
  | properties named => exact absurd named (by decide)
  | definitions named => exact absurd named (by decide)

theorem of_definitions (table : name ∈ ["definitions", "$defs"])
    (h : Rearranged Reordered name x y) :
    x = y ∨ ∃ fs gs, x = .obj fs ∧ y = .obj gs ∧ Fields.Aligned (fun _ => Reordered) fs gs := by
  simp only [List.mem_cons, List.not_mem_nil, or_false] at table
  cases h with
  | same => exact .inl rfl
  | definitions _ paired => exact .inr ⟨_, _, rfl, rfl, paired⟩
  | _ => rcases table with rfl | rfl <;> simp_all

end Rearranged

/-! ## Reading them -/

/-- The constant of a schema contains no `nan`. -/
def ConstNotNan (s : Schema) : Prop := ∀ x, s.const = some x → x.Throughout Json.NotNan

/-- The second schema is as good as the first one, unless a constant contains `nan`. -/
def Kept (s t : Schema) : Prop :=
  s.identifier = t.identifier ∧ (s.Throughout ConstNotNan → s.Agree t)

/-- Wherever it stands, the second document is read as well as the first one. -/
def ReadsAs (x y : Json) : Prop :=
  ∀ here s, read here x = .ok s → ∃ t, (∀ there, read there y = .ok t) ∧ Kept s t

/-- No key is repeated in a value, and whatever stands in it can be reordered. -/
def Settled (x : Json) : Prop :=
  x.Throughout Json.DistinctKeys ∧ ∀ z, Json.Part z x → ∀ w, Reordered z w → ReadsAs z w

namespace Settled

theorem here {x y : Json} (h : Settled x) (hy : Reordered x y) : ReadsAs x y :=
  h.2 x (.whole x) y hy

theorem item {xs : List Json} (h : Settled (.arr xs)) {x : Json} (hx : x ∈ xs) : Settled x :=
  ⟨h.1.item hx, fun z hz w hw => h.2 z (.item hz hx) w hw⟩

theorem field {fs : List (String × Json)} (h : Settled (.obj fs)) {key : String} {x : Json}
    (hx : (key, x) ∈ fs) : Settled x :=
  ⟨h.1.field hx, fun z hz w hw => h.2 z (.field hz hx) w hw⟩

end Settled

theorem Settled.fields {fs hs : List (String × Json)} (settled : Settled (.obj fs))
    (h : Fields.Aligned (fun _ => Reordered) fs hs) :
    Fields.Aligned (fun _ => ReadsTo Kept) fs hs :=
  (forall₂_mem h).imp fun _ _ hfg => ⟨hfg.2.1, (settled.field hfg.1).here hfg.2.2⟩

theorem Settled.items {xs zs : List Json} (settled : Settled (.arr xs))
    (h : List.Forall₂ Reordered xs zs) : List.Forall₂ (ReadsTo Kept) xs zs :=
  (forall₂_mem h).imp fun _ _ hxz => (settled.item hxz.1).here hxz.2

/-! ### Keywords with schemas -/

section

variable {here : Pointer} {u v : Option Json}

theorem properties_reordered (h : Option.Rel (Rearranged Reordered "properties") u v)
    (settled : ∀ x, u = some x → Settled x) {table : List (String × Schema)}
    (hread : propertiesOf here u = .ok table) :
    ∃ more, (∀ there, propertiesOf there v = .ok more) ∧
      ∀ name, Option.Rel Kept (table.lookup name) (more.lookup name) := by
  cases h with
  | none =>
    rw [← Except.ok.inj hread]
    exact ⟨[], fun _ => rfl, fun _ => .none⟩
  | @some x y rearranged =>
    cases x with
    | obj fs =>
      obtain ⟨gs, hs, rfl, paired, arranged⟩ := rearranged.of_properties
      obtain ⟨more, again, kept⟩ := readTable_related ((settled _ rfl).fields paired) hread
      obtain ⟨more', again', arranged'⟩ := List.perm_comp_forall₂ arranged.symm again
      refine ⟨more', fun there => ?_, fun name => ?_⟩
      · exact readTable_eq_ok_iff.mpr (again'.imp fun f t hft => ⟨hft.1, hft.2 _⟩)
      · -- Names are not repeated, so a look-up does not depend on the order.
        have names : (Fields.keys fs).Nodup := (settled _ rfl).1.here
        rw [Fields.Aligned.keys_eq paired, Fields.Aligned.keys_eq again] at names
        rw [← Fields.lookup_perm names arranged'.symm]
        exact Fields.Aligned.lookup kept name
    | _ => exact nomatch hread

theorem schema_reordered {name : String} (one : name ∈ ["additionalProperties", "not"])
    (h : Option.Rel (Rearranged Reordered name) u v)
    (settled : ∀ x, u = some x → Settled x) {s : Option Schema}
    (hread : schemaOf here name u = .ok s) :
    ∃ t, (∀ there, schemaOf there name v = .ok t) ∧ Option.Rel Kept s t := by
  refine schemaOf_related (optionRel_mono (fun x y hx rearranged => ?_) h) hread
  exact (settled x hx).here (rearranged.of_schema one)

theorem branches_reordered (h : Option.Rel (Rearranged Reordered "anyOf") u v)
    (settled : ∀ x, u = some x → Settled x) {ss : Option (List Schema)}
    (hread : anyOfOf here u = .ok ss) :
    ∃ ts, (∀ there, anyOfOf there v = .ok ts) ∧ Option.Rel (BranchesMatch Kept) ss ts := by
  cases h with
  | none =>
    rw [← Except.ok.inj hread]
    exact ⟨none, fun _ => rfl, .none⟩
  | @some x y rearranged =>
    cases x with
    | arr xs =>
      obtain ⟨ys, zs, rfl, paired, arranged⟩ := rearranged.of_anyOf
      obtain ⟨as, ha, rfl⟩ := map_eq_ok.mp hread
      obtain ⟨us, again, kept⟩ := readList_related ((settled _ rfl).items paired) ha
      obtain ⟨ts, again', arranged'⟩ := List.perm_comp_forall₂ arranged.symm again
      exact ⟨some ts, fun there => map_eq_ok.mpr ⟨ts, readList_of_forall₂ _ _ again', rfl⟩,
        .some ⟨us, kept, arranged'.symm⟩⟩
    | _ => exact nomatch hread

theorem items_reordered (h : Option.Rel (Rearranged Reordered "items") u v)
    (settled : ∀ x, u = some x → Settled x) {s : Option (Items Schema)}
    (hread : itemsOf here u = .ok s) :
    ∃ t, (∀ there, itemsOf there v = .ok t) ∧ Option.Rel (ItemsMatch Kept) s t := by
  cases h with
  | none =>
    rw [← Except.ok.inj hread]
    exact ⟨none, fun _ => rfl, .none⟩
  | @some x y rearranged =>
    refine itemsOf_related ?_ hread
    rcases rearranged.of_items with ⟨xs, ys, rfl, rfl, paired⟩ | ⟨related, one, one'⟩
    · exact .inl ⟨xs, ys, rfl, rfl, (settled _ rfl).items paired⟩
    · exact .inr ⟨(settled x rfl).here related, one, one'⟩

end

theorem kinds_reordered {fields more : Keywords} {here : Pointer} {ks : Option (List Kind)}
    (h : Option.Rel (Rearranged Reordered "type") (fields.lookup "type") (more.lookup "type"))
    (hread : keyword fields "type" (readType here) = .ok ks) :
    ∃ ls, (∀ there, keyword more "type" (readType there) = .ok ls) ∧
      Option.Rel List.Perm ks ls := by
  simp only [keyword_eq_ok_iff] at hread ⊢
  generalize fields.lookup "type" = u at h hread
  generalize more.lookup "type" = v at h
  cases h with
  | none =>
    cases hread
    exact ⟨none, fun _ => .none, .none⟩
  | @some x y rearranged =>
    cases hread with
    | some hks =>
      rcases rearranged.of_type with rfl | ⟨xs, ys, rfl, rfl, arranged⟩
      · exact ⟨_, fun there => .some (readType_elsewhere hks there), .some (.refl _)⟩
      · obtain ⟨ls, again, arranged'⟩ := readType_perm hks arranged
        exact ⟨some ls, fun there => .some (again there), .some arranged'⟩

/-! ### Schemas -/

theorem const_coincides {s : Schema} (notNan : ConstNotNan s)
    (distinct : ∀ x, s.const = some x → x.Throughout Json.DistinctKeys) :
    Option.Rel Json.Coincide s.const s.const := by
  rcases hs : s.const with _ | x
  · exact .none
  · have keys := distinct x hs
    exact .some ⟨Json.equal_self x keys (notNan x hs), keys, keys⟩

theorem agree_of_kept {s : Schema} (notNan : s.Throughout ConstNotNan) {us vs : List Schema}
    (within : ∀ u ∈ us, Child u s) (h : List.Forall₂ Kept us vs) : List.Forall₂ Agree us vs := by
  have both := (List.forall₂_and_left us vs).mpr ⟨within, h⟩
  exact both.imp fun u v huv => huv.2.2 (notNan.child huv.1)

theorem option_agree_of_kept {s : Schema} (notNan : s.Throughout ConstNotNan)
    {u v : Option Schema} (within : ∀ a, u = some a → Child a s) (h : Option.Rel Kept u v) :
    Option.Rel Agree u v :=
  optionRel_mono (fun a _ ha kept => kept.2 (notNan.child (within a ha))) h

theorem items_agree_of_kept {s t : Schema} (notNan : s.Throughout ConstNotNan)
    (h : Option.Rel (ItemsMatch Kept) s.items t.items) :
    Option.Rel (ItemsMatch Agree) s.items t.items := by
  refine optionRel_mono (fun a b ha kept => ?_) h
  cases kept with
  | every kept => exact .every (kept.2 (notNan.child (.every ha)))
  | positions kept => exact .positions (agree_of_kept notNan (fun u hu => .position ha hu) kept)

theorem branches_agree_of_kept {s t : Schema} (notNan : s.Throughout ConstNotNan)
    (h : Option.Rel (BranchesMatch Kept) s.anyOf t.anyOf) :
    Option.Rel (BranchesMatch Agree) s.anyOf t.anyOf := by
  refine optionRel_mono (fun a b ha kept => ?_) h
  obtain ⟨us, kept, arranged⟩ := kept
  exact ⟨us, agree_of_kept notNan (fun u hu => .branch ha hu) kept, arranged⟩

/-- An object whose keywords are rearranged is read as well as it was. -/
theorem readsAs_obj {fs gs : List (String × Json)}
    (aligned : Fields.Aligned (Rearranged Reordered) fs gs)
    (settled : ∀ key x, (key, x) ∈ fs → Settled x) : ReadsAs (.obj fs) (.obj gs) := by
  intro here s hs
  have a := read_obj_iff.mp hs
  rw [readParts_eq] at a
  have rearranged (name : String) := Fields.Aligned.lookup aligned name
  have calm (name : String) (x : Json) (hx : fs.lookup name = some x) : Settled x :=
    settled name x (Fields.mem_of_lookup hx)
  have same : SameElsewhere fs gs := fun name other => by
    have value := rearranged name
    generalize fs.lookup name = u at value
    generalize gs.lookup name = v at value
    cases value with
    | none => rfl
    | some value => rw [value.elsewhere other]
  obtain ⟨kinds, readKinds, agreeKinds⟩ := kinds_reordered (rearranged "type") a.kinds
  obtain ⟨properties, readProperties, keptProperties⟩ :=
    properties_reordered (rearranged "properties") (calm _) a.properties
  obtain ⟨additional, readAdditional, keptAdditional⟩ :=
    schema_reordered (by decide) (rearranged "additionalProperties") (calm _) a.additional
  obtain ⟨items, readItems, keptItems⟩ := items_reordered (rearranged "items") (calm _) a.items
  obtain ⟨anyOf, readAnyOf, keptAnyOf⟩ := branches_reordered (rearranged "anyOf") (calm _) a.anyOf
  obtain ⟨negated, readNegated, keptNegated⟩ :=
    schema_reordered (by decide) (rearranged "not") (calm _) a.negated
  obtain ⟨names, required, named⟩ := a.required
  refine ⟨{ s with kinds, properties, additional, items, anyOf, negated }, fun there => ?_, rfl,
    fun notNan => .intro ?_⟩
  · rw [read_obj_iff, readParts_eq]
    exact {
      kinds := readKinds _
      const := (same _ (by decide)).symm.trans a.const
      number := readNumberRules_elsewhere a.number there same.plain
      text := readStringRules_elsewhere a.text there same.plain
      properties := readProperties there
      required := ⟨names, keyword_elsewhere required (same _ (by decide)) fun _ _ h =>
        readRequired_elsewhere h _, named⟩
      additional := readAdditional there
      items := readItems there
      anyOf := readAnyOf there
      negated := readNegated there
      reference := keyword_elsewhere a.reference (same _ (by decide)) fun _ _ h =>
        readString_elsewhere h _
      identifier := keyword_elsewhere a.identifier (same _ (by decide)) fun _ _ h =>
        readString_elsewhere h _
      definitions := a.definitions }
  · exact {
      kinds := agreeKinds
      const := const_coincides notNan.here fun x hx => (calm "const" x (a.const.trans hx)).1
      number := readNumberRules_alike a.number
      text := rfl
      properties := fun name => option_agree_of_kept notNan
        (fun u hu => .property (Fields.mem_of_lookup hu)) (keptProperties name)
      required := rfl
      additional := option_agree_of_kept notNan (fun u hu => .additional hu) keptAdditional
      items := items_agree_of_kept notNan keptItems
      anyOf := branches_agree_of_kept notNan keptAnyOf
      negated := option_agree_of_kept notNan (fun u hu => .negated hu) keptNegated
      reference := rfl }

theorem nothing_agree : nothing.Agree nothing :=
  .intro { matches_everything with negated := .some (.intro matches_everything) }

theorem readsAs_of_not_obj {x y : Json} (h : Reordered x y) (hx : ∀ fs, x ≠ .obj fs) :
    ReadsAs x y := by
  cases h.unfold with
  | object => exact absurd rfl (hx _)
  | same =>
    intro here s hs
    cases x with
    | obj fs => exact absurd rfl (hx fs)
    | bool b =>
      cases b with
      | true =>
        obtain rfl := Except.ok.inj hs
        exact ⟨_, fun _ => rfl, rfl, fun _ => .intro matches_everything⟩
      | false =>
        obtain rfl := Except.ok.inj hs
        exact ⟨_, fun _ => rfl, rfl, fun _ => nothing_agree⟩
    | _ => exact nomatch hs

/-- Whatever stands in a document without repeated keys can be reordered. -/
theorem settled_of_distinct (x : Json) (distinct : x.Throughout Json.DistinctKeys) :
    Settled x := by
  induction x using Json.parts_induction with
  | arr xs ih =>
    refine ⟨distinct, fun z hz w hw => ?_⟩
    cases hz with
    | whole => exact readsAs_of_not_obj hw nofun
    | item part hx => exact (ih _ hx (distinct.item hx)).2 z part w hw
  | obj fs ih =>
    have settled (key : String) (x : Json) (hx : (key, x) ∈ fs) : Settled x :=
      ih key x hx (distinct.field hx)
    refine ⟨distinct, fun z hz w hw => ?_⟩
    -- Only the whole object needs an argument; what stands in it has been dealt with.
    cases hz with
    | whole =>
      cases hw.unfold with
      | same =>
        have aligned : Fields.Aligned (Rearranged Reordered) fs fs :=
          List.forall₂_same.mpr fun f _ => ⟨rfl, .same f.2⟩
        exact readsAs_obj aligned settled
      | object aligned => exact readsAs_obj aligned settled
    | field part hx => exact (settled _ _ hx).2 z part w hw
  | _ =>
    refine ⟨distinct, fun z hz w hw => ?_⟩
    cases hz
    exact readsAs_of_not_obj hw nofun

/-! ## Whole documents -/

theorem readDefinitions_reordered {fields more : Keywords} {name : String}
    (named : name ∈ ["definitions", "$defs"])
    (h : Option.Rel (Rearranged Reordered name) (fields.lookup name) (more.lookup name))
    (settled : ∀ x, fields.lookup name = some x → Settled x) {table : List (String × Schema)}
    (hread : readDefinitions fields name = .ok table) :
    ∃ table', readDefinitions more name = .ok table' ∧
      Fields.Aligned (fun _ => Kept) table table' := by
  unfold readDefinitions at hread ⊢
  generalize fields.lookup name = u at h settled hread
  generalize more.lookup name = v at h
  cases h with
  | none =>
    rw [← Except.ok.inj hread]
    exact ⟨[], rfl, .nil⟩
  | @some x y rearranged =>
    have tables {fs gs : List (String × Json)} (hx : x = .obj fs) (hy : y = .obj gs)
        (paired : Fields.Aligned (fun _ => Reordered) fs gs) :
        ∃ table', readTable (Pointer.root.field name) gs = .ok table' ∧
          Fields.Aligned (fun _ => Kept) table table' := by
      subst hx hy
      obtain ⟨table', again, kept⟩ := readTable_related ((settled _ rfl).fields paired) hread
      exact ⟨table', readTable_eq_ok_iff.mpr (again.imp fun _ _ h => ⟨h.1, h.2 _⟩), kept⟩
    rcases rearranged.of_definitions named with rfl | ⟨fs, gs, rfl, rfl, paired⟩
    · cases x with
      | null =>
        rw [← Except.ok.inj hread]
        exact ⟨[], rfl, .nil⟩
      | obj fs => exact tables rfl rfl (Rearranged.aligned_refl fs)
      | _ => exact nomatch hread
    · exact tables rfl rfl paired

/-- References agree if the definitions they lead to do. -/
theorem references_agree {s t : Schema} (identifier : s.identifier = t.identifier)
    (h : Fields.Aligned (fun _ s t => s.identifier = t.identifier ∧ s.Agree t)
      s.definitions t.definitions) :
    (References.ofRoot s).Agree (References.ofRoot t) := by
  obtain ⟨size, find⟩ := References.ofRoot_related identifier h
  exact ⟨size, find⟩

theorem child_withDefinitions {u s : Schema} (h : Child u s) (none : s.definitions = [])
    (definitions : List (String × Schema)) : Child u { s with definitions } := by
  cases h with
  | property hu => exact .property hu
  | additional hu => exact .additional hu
  | every hu => exact .every hu
  | position hu hmem => exact .position hu hmem
  | branch hu hmem => exact .branch hu hmem
  | negated hu => exact .negated hu
  | definition hu =>
    rw [none] at hu
    exact nomatch hu

theorem kept_withDefinitions {s t : Schema} (h : Kept s t) (none : s.definitions = [])
    {fs gs : List (String × Schema)} (notNan : Throughout ConstNotNan { s with definitions := fs }) :
    Agree { s with definitions := fs } { t with definitions := gs } := by
  have own : s.Throughout ConstNotNan :=
    throughout_iff.mpr ⟨notNan.here, fun u hu => notNan.child (child_withDefinitions hu none fs)⟩
  have m := (h.2 own).unfold
  exact .intro { m with }

theorem aligned_of_kept {s : Schema} (notNan : s.Throughout ConstNotNan)
    {fs : List (String × Schema)} (h : Fields.Aligned (fun _ => Kept) s.definitions fs) :
    Fields.Aligned (fun _ s t => s.identifier = t.identifier ∧ s.Agree t) s.definitions fs := by
  have within : ∀ f ∈ s.definitions, Child f.2 s := fun f hf => .definition hf
  have both := (List.forall₂_and_left _ _).mpr ⟨within, h⟩
  exact both.imp fun f g hfg => ⟨hfg.2.1, hfg.2.2.1, hfg.2.2.2 (notNan.child hfg.1)⟩

/-- A document in another order is a schema if the document is. Unless a constant contains `nan`,
the two schemas agree, and so does what their references lead to. -/
theorem ofDocument_reordered {x y : Json} (h : Reordered x y)
    (distinct : x.Throughout Json.DistinctKeys) {s : Schema} (hs : ofDocument x = .ok s) :
    ∃ t, ofDocument y = .ok t ∧ (s.Throughout ConstNotNan →
      s.Agree t ∧ (References.ofRoot s).Agree (References.ofRoot t)) := by
  have settled := settled_of_distinct x distinct
  obtain ⟨root, hroot, hs⟩ := bind_eq_ok.mp hs
  have none := read_definitions hroot
  obtain ⟨root', hroot', kept⟩ := settled.here h _ root hroot
  have objects {fs gs : List (String × Json)} (hx : x = .obj fs) (hy : y = .obj gs)
      (rearranged : Fields.Aligned (Rearranged Reordered) fs gs) :
      ∃ t, ofDocument y = .ok t ∧ (s.Throughout ConstNotNan →
        s.Agree t ∧ (References.ofRoot s).Agree (References.ofRoot t)) := by
    subst hx hy
    simp only [bind_eq_ok, pure_eq_ok] at hs
    obtain ⟨older, holder, newer, hnewer, rfl⟩ := hs
    have calm (name : String) (x : Json) (hx : fs.lookup name = some x) : Settled x :=
      settled.field (Fields.mem_of_lookup hx)
    obtain ⟨older', readOlder, keptOlder⟩ := readDefinitions_reordered (by decide)
      (Fields.Aligned.lookup rearranged "$defs") (calm _) holder
    obtain ⟨newer', readNewer, keptNewer⟩ := readDefinitions_reordered (by decide)
      (Fields.Aligned.lookup rearranged "definitions") (calm _) hnewer
    have tables := Fields.Aligned.putAll keptOlder keptNewer
    refine ⟨{ root' with definitions := Fields.putAll older' newer' }, ?_, fun notNan => ⟨?_, ?_⟩⟩
    · simp only [ofDocument, bind_eq_ok, pure_eq_ok]
      exact ⟨root', hroot' _, older', readOlder, newer', readNewer, rfl⟩
    · exact kept_withDefinitions kept none notNan
    · exact references_agree kept.1 (aligned_of_kept notNan tables)
  cases h.unfold with
  | object rearranged => exact objects rfl rfl rearranged
  | same =>
    cases x with
    | obj fs =>
      exact objects rfl rfl (List.forall₂_same.mpr fun f _ => ⟨rfl, .same f.2⟩)
    | bool b =>
      obtain rfl := Except.ok.inj hs
      have again := hroot' Pointer.root
      refine ⟨root', bind_eq_ok.mpr ⟨root', again, rfl⟩, fun notNan => ⟨kept.2 notNan, ?_⟩⟩
      refine references_agree kept.1 ?_
      rw [none, read_definitions again]
      exact .nil
    | _ => exact nomatch hroot

end SchemaDrift.Schema
