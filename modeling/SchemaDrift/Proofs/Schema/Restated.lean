import SchemaDrift.Proofs.Schema.Reads
import SchemaDrift.Proofs.Schema.Rekeyed

/-!
# Documents in other words

A schema document can be written down in many ways that say the same: the keys of its objects may
stand in any order, required names may be repeated, and keywords that are not read may be there or
not. Only the order of the definitions counts, as does that of kinds, positions and branches.

* `Schema.Restated` relates schemas in two documents that differ in this way only, and
  `Schema.RestatedRoot` whole documents. By `Schema.RestatedRoot.trans` any mix of such steps leads
  to such a document.
* `Schema.ofDocument_restated`: if one of them is a schema, so is the other one, and the two schemas
  have the same rules in another order, as does what their references lead to.
-/

namespace SchemaDrift.Schema

/-! ## Restated documents -/

/-- The keywords that are read wherever a schema stands. -/
def readKeywords : List String :=
  ["type", "const", "minimum", "maximum", "exclusiveMinimum", "exclusiveMaximum", "format",
    "pattern", "minLength", "maxLength", "properties", "required", "additionalProperties", "items",
    "anyOf", "not", "$ref", "$id"]

/-- The keywords that are read at the root of a document. -/
def rootKeywords : List String := readKeywords ++ ["definitions", "$defs"]

/-- The values of a keyword in two documents, where `R` relates the schemas in them. -/
inductive SaysSame (R : Json → Json → Prop) (name : String) : Json → Json → Prop where
  | same (x : Json) : SaysSame R name x x
  | const {x y : Json} : name = "const" → x.Rekeyed y → SaysSame R name x y
  | required {xs ys : List Json} : name = "required" → (∀ x, x ∈ xs ↔ x ∈ ys) →
    SaysSame R name (.arr xs) (.arr ys)
  | properties {fs gs : List (String × Json)} : name = "properties" →
    (∀ key, Option.Rel R (fs.lookup key) (gs.lookup key)) → SaysSame R name (.obj fs) (.obj gs)
  | schema {x y : Json} : name ∈ ["additionalProperties", "items", "not"] → R x y →
    SaysSame R name x y
  | list {xs ys : List Json} : name ∈ ["items", "anyOf"] → List.Forall₂ R xs ys →
    SaysSame R name (.arr xs) (.arr ys)
  | definitions {fs gs : List (String × Json)} : name ∈ ["definitions", "$defs"] →
    Fields.Aligned (fun _ => R) fs gs → SaysSame R name (.obj fs) (.obj gs)

/-- What it takes for a document to say the same as another one under the keywords that are read,
if `R` says so of the schemas in them. -/
inductive RestatedSchema (read : List String) (R : Json → Json → Prop) : Json → Json → Prop where
  | same (x : Json) : RestatedSchema read R x x
  | object {fs gs : List (String × Json)} :
    (∀ name ∈ read, Option.Rel (SaysSame R name) (fs.lookup name) (gs.lookup name)) →
    RestatedSchema read R (.obj fs) (.obj gs)

/-- The second schema says the same as the first one: some relation holds between them that asks as
much of the schemas in them. -/
def Restated (x y : Json) : Prop :=
  ∃ R, (∀ a b, R a b → RestatedSchema readKeywords R a b) ∧ R x y

/-- The second document says the same as the first one. -/
def RestatedRoot (x y : Json) : Prop := RestatedSchema rootKeywords Restated x y

section

variable {R S : Json → Json → Prop}

theorem SaysSame.mono (h : ∀ x y, R x y → S x y) {name : String} {x y : Json}
    (hxy : SaysSame R name x y) : SaysSame S name x y := by
  cases hxy with
  | same => exact .same x
  | const named rekeyed => exact .const named rekeyed
  | required named members => exact .required named members
  | properties named lookup =>
    exact .properties named fun key => optionRel_mono (fun a b _ => h a b) (lookup key)
  | schema named related => exact .schema named (h _ _ related)
  | list named paired => exact .list named (paired.imp h)
  | definitions named paired =>
    exact .definitions named (paired.imp fun f g hfg => ⟨hfg.1, h _ _ hfg.2⟩)

theorem SaysSame.flip {name : String} {x y : Json} (h : SaysSame R name x y) :
    SaysSame (fun a b => R b a) name y x := by
  cases h with
  | same => exact .same x
  | const named rekeyed => exact .const named rekeyed.symm
  | required named members => exact .required named fun z => (members z).symm
  | properties named lookup =>
    exact .properties named fun key => optionRel_flip (fun _ _ _ _ hab => hab) (lookup key)
  | schema named related => exact .schema named related
  | list named paired => exact .list named paired.flip
  | definitions named paired =>
    exact .definitions named (paired.imp fun f g hfg => (⟨hfg.1.symm, hfg.2⟩ : _ ∧ _)).flip

/-- The entries of a table of properties may stand in any order. -/
theorem SaysSame.properties_perm {fs gs hs : List (String × Json)}
    (distinct : (Fields.keys fs).Nodup) (paired : Fields.Aligned (fun _ => R) fs hs)
    (arranged : hs.Perm gs) : SaysSame R "properties" (.obj fs) (.obj gs) := by
  rw [paired.keys_eq] at distinct
  refine .properties rfl fun key => ?_
  rw [← Fields.lookup_perm distinct arranged]
  exact paired.lookup key

variable {known : List String}

theorem RestatedSchema.mono (h : ∀ x y, R x y → S x y) {x y : Json}
    (hxy : RestatedSchema known R x y) : RestatedSchema known S x y := by
  cases hxy with
  | same => exact .same x
  | object lookup =>
    exact .object fun name hname =>
      optionRel_mono (fun _ _ _ => SaysSame.mono h) (lookup name hname)

theorem RestatedSchema.flip {x y : Json} (h : RestatedSchema known R x y) :
    RestatedSchema known (fun a b => R b a) y x := by
  cases h with
  | same => exact .same x
  | object lookup =>
    exact .object fun name hname => optionRel_flip (fun _ _ _ _ => SaysSame.flip) (lookup name hname)

end

namespace Restated

theorem refl (x : Json) : Restated x x := ⟨Eq, fun a _ h => h ▸ .same a, rfl⟩

theorem symm {x y : Json} (h : Restated x y) : Restated y x := by
  obtain ⟨R, closed, hxy⟩ := h
  exact ⟨fun a b => R b a, fun a b hab => (closed b a hab).flip, hxy⟩

theorem unfold {x y : Json} (h : Restated x y) : RestatedSchema readKeywords Restated x y := by
  obtain ⟨R, closed, hxy⟩ := h
  exact (closed x y hxy).mono fun a b hab => ⟨R, closed, hab⟩

/-- Schemas that say the same under every keyword that is read say the same. -/
theorem intro {x y : Json} (h : RestatedSchema readKeywords Restated x y) : Restated x y :=
  ⟨RestatedSchema readKeywords Restated, fun _ _ hab => hab.mono fun _ _ hcd => hcd.unfold, h⟩

/-- A schema says the same as a third one through the one between them. -/
def Through (x z : Json) : Prop := ∃ y, Restated x y ∧ Restated y z

theorem saysSame_trans {name : String} {x y z : Json} (first : SaysSame Restated name x y)
    (second : SaysSame Restated name y z) : SaysSame Through name x z := by
  cases first with
  | same => exact second.mono fun a _ h => ⟨a, .refl a, h⟩
  | const named rekeyed =>
    subst named
    cases second with
    | same => exact .const rfl rekeyed
    | const _ rekeyed' => exact .const rfl (rekeyed.trans rekeyed')
    | _ => simp_all
  | required named members =>
    subst named
    cases second with
    | same => exact .required rfl members
    | required _ members' => exact .required rfl fun u => (members u).trans (members' u)
    | _ => simp_all
  | properties named lookup =>
    subst named
    cases second with
    | same =>
      exact .properties rfl fun key =>
        optionRel_mono (fun _ b _ h => ⟨b, h, .refl b⟩) (lookup key)
    | properties _ lookup' =>
      exact .properties rfl fun key =>
        optionRel_trans (fun _ _ b _ h k => ⟨b, h, k⟩) (lookup key) (lookup' key)
    | _ => simp_all
  | schema named related =>
    cases second with
    | same => exact .schema named ⟨_, related, .refl _⟩
    | schema _ related' => exact .schema named ⟨_, related, related'⟩
    | list other paired =>
      cases related.unfold with
      | same => exact .list other (paired.imp fun a _ h => ⟨a, .refl a, h⟩)
    | const other =>
      subst other
      exact absurd named (by decide)
    | required other =>
      subst other
      exact absurd named (by decide)
    | properties other =>
      subst other
      exact absurd named (by decide)
    | definitions other =>
      simp only [List.mem_cons, List.not_mem_nil, or_false] at other
      rcases other with rfl | rfl <;> exact absurd named (by decide)
  | list named paired =>
    cases second with
    | same => exact .list named (paired.imp fun _ b h => ⟨b, h, .refl b⟩)
    | list _ paired' =>
      exact .list named (forall₂_trans (fun _ _ b _ h k => ⟨b, h, k⟩) paired paired')
    | schema _ related =>
      cases related.unfold with
      | same => exact .list named (paired.imp fun _ b h => ⟨b, h, .refl b⟩)
    | const other =>
      subst other
      exact absurd named (by decide)
    | required other =>
      subst other
      exact absurd named (by decide)
  | definitions named paired =>
    cases second with
    | same => exact .definitions named (paired.imp fun f g h => ⟨h.1, g.2, h.2, .refl g.2⟩)
    | definitions _ paired' =>
      exact .definitions named
        (forall₂_trans (fun _ _ g _ h k => ⟨h.1.trans k.1, g.2, h.2, k.2⟩) paired paired')
    | const other =>
      subst other
      exact absurd named (by decide)
    | properties other =>
      subst other
      exact absurd named (by decide)
    | schema other =>
      simp only [List.mem_cons, List.not_mem_nil, or_false] at named
      rcases named with rfl | rfl <;> exact absurd other (by decide)

theorem through_trans {known : List String} {x y z : Json} (first : RestatedSchema known Restated x y)
    (second : RestatedSchema known Restated y z) : RestatedSchema known Through x z := by
  cases first with
  | same => exact second.mono fun u _ h => ⟨u, .refl u, h⟩
  | object lookup =>
    cases second with
    | same =>
      exact .object fun name known =>
        optionRel_mono (fun _ _ _ h => h.mono fun _ v h => ⟨v, h, .refl v⟩) (lookup name known)
    | object lookup' =>
      refine .object fun name known => optionRel_trans ?_ (lookup name known) (lookup' name known)
      exact fun _ _ _ _ => saysSame_trans

theorem trans {x y z : Json} (first : Restated x y) (second : Restated y z) : Restated x z :=
  ⟨Through, fun _ _ ⟨_, h, k⟩ => through_trans h.unfold k.unfold, y, first, second⟩

end Restated

theorem RestatedRoot.symm {x y : Json} (h : RestatedRoot x y) : RestatedRoot y x :=
  RestatedSchema.mono (fun _ _ hab => hab.symm) (RestatedSchema.flip h)

/-- A document in other words that is put in other words again says the same as at first. -/
theorem RestatedRoot.trans {x y z : Json} (first : RestatedRoot x y) (second : RestatedRoot y z) :
    RestatedRoot x z := by
  have through := Restated.through_trans first second
  exact through.mono fun _ _ ⟨_, h, k⟩ => h.trans k

/-- Documents that say the same do so as schemas. -/
theorem RestatedRoot.restated {x y : Json} (h : RestatedRoot x y) : Restated x y := by
  cases h with
  | same => exact .refl x
  | object lookup =>
    exact .intro (.object fun name hname => lookup name (List.mem_append_left _ hname))

/-! ## Single keywords -/

namespace SaysSame

variable {name : String} {x y : Json}

/-- The other keywords that are read have values without schemas, constants or names in them. -/
theorem plain {R : Json → Json → Prop} (h : SaysSame R name x y)
    (other : name ∉ ["const", "required", "properties", "additionalProperties", "items", "not",
      "anyOf", "definitions", "$defs"]) : x = y := by
  simp only [List.mem_cons, List.not_mem_nil, or_false, not_or] at other
  cases h with
  | same => rfl
  | const named => exact absurd named other.1
  | required named => exact absurd named other.2.1
  | properties named => exact absurd named other.2.2.1
  | schema named => simp [other] at named
  | list named => simp [other] at named
  | definitions named => simp [other] at named

theorem of_const (h : SaysSame Restated "const" x y) (distinct : x.Throughout Json.DistinctKeys) :
    x.Rekeyed y := by
  cases h with
  | same => exact .refl x distinct
  | const _ rekeyed => exact rekeyed
  | required named => exact absurd named (by decide)
  | properties named => exact absurd named (by decide)
  | schema named => exact absurd named (by decide)
  | list named => exact absurd named (by decide)
  | definitions named => exact absurd named (by decide)

theorem of_required (h : SaysSame Restated "required" x y) :
    x = y ∨ ∃ xs ys, x = .arr xs ∧ y = .arr ys ∧ ∀ z, z ∈ xs ↔ z ∈ ys := by
  cases h with
  | same => exact .inl rfl
  | required _ members => exact .inr ⟨_, _, rfl, rfl, members⟩
  | const named => exact absurd named (by decide)
  | properties named => exact absurd named (by decide)
  | schema named => exact absurd named (by decide)
  | list named => exact absurd named (by decide)
  | definitions named => exact absurd named (by decide)

theorem lookup_refl (fs : List (String × Json)) (key : String) :
    Option.Rel Restated (fs.lookup key) (fs.lookup key) := by
  cases fs.lookup key with
  | none => exact .none
  | some x => exact .some (.refl x)

theorem of_properties {fs : List (String × Json)}
    (h : SaysSame Restated "properties" (.obj fs) y) :
    ∃ gs, y = .obj gs ∧ ∀ key, Option.Rel Restated (fs.lookup key) (gs.lookup key) := by
  cases h with
  | same => exact ⟨fs, rfl, lookup_refl fs⟩
  | properties _ lookup => exact ⟨_, rfl, lookup⟩
  | const named => exact absurd named (by decide)
  | schema named => exact absurd named (by decide)
  | definitions named => exact absurd named (by decide)

theorem of_schema (one : name ∈ ["additionalProperties", "not"])
    (h : SaysSame Restated name x y) : Restated x y := by
  simp only [List.mem_cons, List.not_mem_nil, or_false] at one
  cases h with
  | same => exact .refl x
  | schema _ related => exact related
  | _ => rcases one with rfl | rfl <;> simp_all

theorem list_refl (xs : List Json) : List.Forall₂ Restated xs xs :=
  List.forall₂_same.mpr fun x _ => .refl x

theorem of_anyOf {xs : List Json} (h : SaysSame Restated "anyOf" (.arr xs) y) :
    ∃ ys, y = .arr ys ∧ List.Forall₂ Restated xs ys := by
  cases h with
  | same => exact ⟨xs, rfl, list_refl xs⟩
  | list _ paired => exact ⟨_, rfl, paired⟩
  | const named => exact absurd named (by decide)
  | required named => exact absurd named (by decide)
  | schema named => exact absurd named (by decide)

theorem of_items (h : SaysSame Restated "items" x y) :
    (∃ xs ys, x = .arr xs ∧ y = .arr ys ∧ List.Forall₂ Restated xs ys) ∨
      Restated x y ∧ (∀ xs, x ≠ .arr xs) ∧ ∀ ys, y ≠ .arr ys := by
  have self (x : Json) : (∃ xs ys, x = .arr xs ∧ x = .arr ys ∧ List.Forall₂ Restated xs ys) ∨
      Restated x x ∧ (∀ xs, x ≠ .arr xs) ∧ ∀ ys, x ≠ .arr ys := by
    cases x with
    | arr xs => exact .inl ⟨xs, xs, rfl, rfl, list_refl xs⟩
    | _ => exact .inr ⟨.refl _, nofun, nofun⟩
  cases h with
  | same => exact self x
  | schema _ related =>
    cases related.unfold with
    | same => exact self x
    | object => exact .inr ⟨related, nofun, nofun⟩
  | list _ paired => exact .inl ⟨_, _, rfl, rfl, paired⟩
  | const named => exact absurd named (by decide)
  | required named => exact absurd named (by decide)
  | properties named => exact absurd named (by decide)
  | definitions named => exact absurd named (by decide)

theorem of_definitions (table : name ∈ ["definitions", "$defs"]) (h : SaysSame Restated name x y) :
    x = y ∨ ∃ fs gs, x = .obj fs ∧ y = .obj gs ∧ Fields.Aligned (fun _ => Restated) fs gs := by
  simp only [List.mem_cons, List.not_mem_nil, or_false] at table
  cases h with
  | same => exact .inl rfl
  | definitions _ paired => exact .inr ⟨_, _, rfl, rfl, paired⟩
  | _ => rcases table with rfl | rfl <;> simp_all

end SaysSame

/-! ## Reading them -/

/-- Required names may be repeated and stand in any order. -/
theorem readRequired_members {here : Pointer} {xs ys : List Json} {names : List String}
    (h : readRequired here (.arr xs) = .ok names) (members : ∀ z, z ∈ xs ↔ z ∈ ys)
    (there : Pointer) : readRequired there (.arr ys) = .ok names := by
  unfold readRequired at h ⊢
  dsimp only at h ⊢
  split at h
  · next listed found =>
    obtain rfl := strings?_eq_some_iff.mp found
    obtain ⟨others, paired⟩ :
        ∃ others : List String, List.Forall₂ (fun y s => y = .str s) ys others :=
      exists_partners fun y hy => by
        obtain ⟨s, -, rfl⟩ := List.mem_map.mp ((members y).mpr hy)
        exact ⟨s, rfl⟩
    obtain rfl : ys = others.map .str := by
      rw [← List.forall₂_eq_eq_eq, List.forall₂_map_right_iff]
      exact paired
    have same (name : String) : name ∈ listed ↔ name ∈ others := by
      have member := members (.str name)
      simpa using member
    rw [strings?_eq_some_iff.mpr rfl, ← h, Names.ofList_eq same]
  · exact nomatch h

/-- No key is repeated in a value, and whatever stands in it is read as well in other words. -/
def Ready (x : Json) : Prop :=
  x.Throughout Json.DistinctKeys ∧ ∀ z, Json.Part z x → ∀ w, w.Throughout Json.DistinctKeys →
    Restated z w → ReadsTo Rekeyed z w

namespace Ready

theorem here {x y : Json} (h : Ready x) (distinct : y.Throughout Json.DistinctKeys)
    (hxy : Restated x y) : ReadsTo Rekeyed x y := h.2 x (.whole x) y distinct hxy

theorem item {xs : List Json} (h : Ready (.arr xs)) {x : Json} (hx : x ∈ xs) : Ready x :=
  ⟨h.1.item hx, fun z hz w distinct hw => h.2 z (.item hz hx) w distinct hw⟩

theorem field {fs : List (String × Json)} (h : Ready (.obj fs)) {key : String} {x : Json}
    (hx : (key, x) ∈ fs) : Ready x :=
  ⟨h.1.field hx, fun z hz w distinct hw => h.2 z (.field hz hx) w distinct hw⟩

theorem items {xs ys : List Json} (ready : Ready (.arr xs))
    (distinct : (Json.arr ys).Throughout Json.DistinctKeys) (h : List.Forall₂ Restated xs ys) :
    List.Forall₂ (ReadsTo Rekeyed) xs ys := by
  have right := (forall₂_mem h.flip).flip
  exact (forall₂_mem right).imp fun x y hxy =>
    (ready.item hxy.1).here (distinct.item hxy.2.1) hxy.2.2

theorem fields {fs gs : List (String × Json)} (ready : Ready (.obj fs))
    (distinct : (Json.obj gs).Throughout Json.DistinctKeys)
    (h : Fields.Aligned (fun _ => Restated) fs gs) :
    Fields.Aligned (fun _ => ReadsTo Rekeyed) fs gs := by
  have right := (forall₂_mem h.flip).flip
  exact (forall₂_mem right).imp fun f g hfg =>
    ⟨hfg.2.2.1, (ready.field hfg.1).here (distinct.field hfg.2.1) hfg.2.2.2⟩

end Ready

section

variable {here : Pointer} {u v : Option Json} (ready : ∀ x, u = some x → Ready x)
  (distinct : ∀ y, v = some y → y.Throughout Json.DistinctKeys)

include ready distinct

/-- A table in another order is read entry by entry. -/
theorem properties_restated (h : Option.Rel (SaysSame Restated "properties") u v)
    {table : List (String × Schema)} (hread : propertiesOf here u = .ok table) :
    ∃ more, (∀ there, propertiesOf there v = .ok more) ∧ Fields.Tally Rekeyed table more := by
  cases h with
  | none =>
    rw [← Except.ok.inj hread]
    exact ⟨[], fun _ => rfl, .nil⟩
  | @some x y value =>
    cases x with
    | obj fs =>
      obtain ⟨gs, rfl, lookup⟩ := value.of_properties
      have left : (Fields.keys fs).Nodup := (ready _ rfl).1.here
      have right : (Fields.keys gs).Nodup := (distinct _ rfl).here
      have entries : Fields.Aligned
          (fun name x s => read ((here.field "properties").field name) x = .ok s) fs table :=
        readTable_eq_ok_iff.mp hread
      have partner (g : String × Json) (hg : g ∈ gs) : ∃ m : String × Schema, g.1 = m.1 ∧
          (∀ there, read there g.2 = .ok m.2) ∧
            ∃ s, table.lookup g.1 = some s ∧ s.Rekeyed m.2 := by
        have found := lookup g.1
        have entry := entries.lookup g.1
        rw [Fields.lookup_of_mem right hg] at found
        rcases rel_cases found with ⟨-, absent⟩ | ⟨x, y, hx, hy, restated⟩
        · exact nomatch absent
        · obtain rfl := Option.some.inj hy
          rw [hx] at entry
          rcases rel_cases entry with ⟨absent, -⟩ | ⟨x', s, hx', hs, readAs⟩
          · exact nomatch absent
          · obtain rfl := Option.some.inj hx'
            have reads := ((ready _ rfl).field (Fields.mem_of_lookup hx)).here
              ((distinct _ rfl).field hg) restated
            obtain ⟨t, again, related⟩ := reads _ s readAs
            exact ⟨(g.1, t), rfl, again, s, hs, related⟩
      obtain ⟨more, partners⟩ := exists_partners partner
      have partners : Fields.Aligned (fun name y t => (∀ there, read there y = .ok t) ∧
          ∃ s, table.lookup name = some s ∧ s.Rekeyed t) gs more := partners
      refine ⟨more, fun there => readTable_eq_ok_iff.mpr (partners.imp fun g m h => ⟨h.1, h.2.1 _⟩),
        entries.keys_eq ▸ left, partners.keys_eq ▸ right, fun name => ?_⟩
      rcases rel_cases (partners.lookup name) with ⟨hg, hm⟩ | ⟨y, t, hg, hm, -, s, hs, related⟩
      · have found := lookup name
        have entry := entries.lookup name
        rw [hg] at found
        rcases rel_cases found with ⟨hf, -⟩ | ⟨_, _, -, present, -⟩
        · rw [hf] at entry
          rcases rel_cases entry with ⟨-, hs⟩ | ⟨_, _, present, -⟩
          · rw [hs, hm]
            exact .none
          · exact nomatch present
        · exact nomatch present
      · rw [hs, hm]
        exact .some related
    | _ => exact nomatch hread

theorem schema_restated {name : String} (one : name ∈ ["additionalProperties", "not"])
    (h : Option.Rel (SaysSame Restated name) u v) {s : Option Schema}
    (hread : schemaOf here name u = .ok s) :
    ∃ t, (∀ there, schemaOf there name v = .ok t) ∧ Option.Rel Rekeyed s t := by
  refine schemaOf_related ?_ hread
  cases h with
  | none => exact .none
  | some value => exact .some ((ready _ rfl).here (distinct _ rfl) (value.of_schema one))

theorem branches_restated (h : Option.Rel (SaysSame Restated "anyOf") u v)
    {ss : Option (List Schema)} (hread : anyOfOf here u = .ok ss) :
    ∃ ts, (∀ there, anyOfOf there v = .ok ts) ∧ Option.Rel (List.Forall₂ Rekeyed) ss ts := by
  cases h with
  | none =>
    rw [← Except.ok.inj hread]
    exact ⟨none, fun _ => rfl, .none⟩
  | @some x y value =>
    cases x with
    | arr xs =>
      obtain ⟨ys, rfl, paired⟩ := value.of_anyOf
      obtain ⟨as, ha, rfl⟩ := map_eq_ok.mp hread
      obtain ⟨ts, again, related⟩ :=
        readList_related ((ready _ rfl).items (distinct _ rfl) paired) ha
      exact ⟨some ts, fun there => map_eq_ok.mpr ⟨ts, readList_of_forall₂ _ _ again, rfl⟩,
        .some related⟩
    | _ => exact nomatch hread

theorem items_restated (h : Option.Rel (SaysSame Restated "items") u v)
    {s : Option (Items Schema)} (hread : itemsOf here u = .ok s) :
    ∃ t, (∀ there, itemsOf there v = .ok t) ∧ Option.Rel (ItemsMatch Rekeyed) s t := by
  cases h with
  | none =>
    rw [← Except.ok.inj hread]
    exact ⟨none, fun _ => rfl, .none⟩
  | @some x y value =>
    refine itemsOf_related ?_ hread
    rcases value.of_items with ⟨xs, ys, rfl, rfl, paired⟩ | ⟨related, one, one'⟩
    · exact .inl ⟨xs, ys, rfl, rfl, (ready _ rfl).items (distinct _ rfl) paired⟩
    · exact .inr ⟨(ready x rfl).here (distinct y rfl) related, one, one'⟩

end

theorem required_restated {fields more : Keywords} {here : Pointer} {names : Option (List String)}
    (h : Option.Rel (SaysSame Restated "required") (fields.lookup "required")
      (more.lookup "required"))
    (hread : keyword fields "required" (readRequired here) = .ok names) (there : Pointer) :
    keyword more "required" (readRequired there) = .ok names := by
  rw [keyword_eq_ok_iff] at hread ⊢
  generalize fields.lookup "required" = u at h hread
  generalize more.lookup "required" = v at h
  cases h with
  | none =>
    cases hread
    exact .none
  | some value =>
    cases hread with
    | some listed =>
      rcases value.of_required with rfl | ⟨xs, ys, rfl, rfl, members⟩
      · exact .some (readRequired_elsewhere listed there)
      · exact .some (readRequired_members listed members there)

/-! ### Schemas -/

/-- An object that says the same is read as well. -/
theorem readsTo_obj {fs gs : List (String × Json)}
    (restated : ∀ name ∈ readKeywords,
      Option.Rel (SaysSame Restated name) (fs.lookup name) (gs.lookup name))
    (ready : ∀ key x, (key, x) ∈ fs → Ready x)
    (distinct : (Json.obj gs).Throughout Json.DistinctKeys) :
    ReadsTo Rekeyed (.obj fs) (.obj gs) := by
  intro here s hs
  have a := read_obj_iff.mp hs
  rw [readParts_eq] at a
  have left (name : String) (x : Json) (hx : fs.lookup name = some x) : Ready x :=
    ready name x (Fields.mem_of_lookup hx)
  have right (name : String) (y : Json) (hy : gs.lookup name = some y) :
      y.Throughout Json.DistinctKeys := distinct.field (Fields.mem_of_lookup hy)
  -- Most keywords have values without schemas in them, and these are the same.
  have same (name : String) (known : name ∈ readKeywords)
      (other : name ∉ ["const", "required", "properties", "additionalProperties", "items", "not",
        "anyOf", "definitions", "$defs"]) : fs.lookup name = gs.lookup name := by
    rcases rel_cases (restated name known) with ⟨hf, hg⟩ | ⟨x, y, hf, hg, value⟩
    · rw [hf, hg]
    · rw [hf, hg, value.plain other]
  have plain (name : String) (h : name ∈ plainKeywords) : fs.lookup name = gs.lookup name := by
    have both : ∀ name ∈ plainKeywords, name ∈ readKeywords ∧ name ∉ ["const", "required",
        "properties", "additionalProperties", "items", "not", "anyOf", "definitions", "$defs"] := by
      decide
    exact same name (both name h).1 (both name h).2
  obtain ⟨properties, readProperties, tally⟩ := properties_restated (left _) (right _)
    (restated "properties" (by decide)) a.properties
  obtain ⟨additional, readAdditional, keptAdditional⟩ := schema_restated (left _) (right _)
    (by decide) (restated "additionalProperties" (by decide)) a.additional
  obtain ⟨items, readItems, keptItems⟩ := items_restated (left _) (right _)
    (restated "items" (by decide)) a.items
  obtain ⟨anyOf, readAnyOf, keptAnyOf⟩ := branches_restated (left _) (right _)
    (restated "anyOf" (by decide)) a.anyOf
  obtain ⟨negated, readNegated, keptNegated⟩ := schema_restated (left _) (right _)
    (by decide) (restated "not" (by decide)) a.negated
  obtain ⟨names, required, named⟩ := a.required
  have const : Option.Rel Json.Rekeyed s.const (gs.lookup "const") := by
    rw [← a.const]
    exact optionRel_mono (fun x y hx value => value.of_const (left _ x hx).1)
      (restated "const" (by decide))
  refine ⟨{ s with const := gs.lookup "const", properties, additional, items, anyOf, negated },
    fun there => ?_, .intro ?_⟩
  · rw [read_obj_iff, readParts_eq]
    exact {
      kinds := keyword_elsewhere a.kinds (same _ (by decide) (by decide)) fun _ _ h =>
        readType_elsewhere h _
      const := rfl
      number := readNumberRules_elsewhere a.number there plain
      text := readStringRules_elsewhere a.text there plain
      properties := readProperties there
      required := ⟨names, required_restated (restated "required" (by decide)) required _, named⟩
      additional := readAdditional there
      items := readItems there
      anyOf := readAnyOf there
      negated := readNegated there
      reference := keyword_elsewhere a.reference (same _ (by decide) (by decide)) fun _ _ h =>
        readString_elsewhere h _
      identifier := keyword_elsewhere a.identifier (same _ (by decide) (by decide)) fun _ _ h =>
        readString_elsewhere h _
      definitions := a.definitions }
  · exact {
      kinds := rfl
      const := const
      number := rfl
      text := rfl
      properties := tally
      required := rfl
      additional := keptAdditional
      items := keptItems
      anyOf := keptAnyOf
      negated := keptNegated
      reference := rfl
      identifier := rfl
      definitions := by
        show Fields.Tally Rekeyed s.definitions s.definitions
        rw [a.definitions]
        exact .nil }

theorem readsTo_of_not_obj {x y : Json} (h : Restated x y) (hx : ∀ fs, x ≠ .obj fs) :
    ReadsTo Rekeyed x y := by
  cases h.unfold with
  | object => exact absurd rfl (hx _)
  | same =>
    intro here s hs
    cases x with
    | obj fs => exact absurd rfl (hx fs)
    | bool b =>
      cases b with
      | true =>
        obtain rfl := Except.ok.inj hs
        exact ⟨_, fun _ => rfl, rekeyed_everything⟩
      | false =>
        obtain rfl := Except.ok.inj hs
        exact ⟨_, fun _ => rfl, rekeyed_nothing⟩
    | _ => exact nomatch hs

theorem saysSame_refl (fs : List (String × Json)) (name : String) :
    Option.Rel (SaysSame Restated name) (fs.lookup name) (fs.lookup name) := by
  cases fs.lookup name with
  | none => exact .none
  | some x => exact .some (.same x)

/-- Whatever stands in a document without repeated keys is read as well in other words. -/
theorem ready_of_distinct (x : Json) (distinct : x.Throughout Json.DistinctKeys) : Ready x := by
  induction x using Json.parts_induction with
  | arr xs ih =>
    refine ⟨distinct, fun z hz w keys hw => ?_⟩
    cases hz with
    | whole => exact readsTo_of_not_obj hw nofun
    | item part hx => exact (ih _ hx (distinct.item hx)).2 z part w keys hw
  | obj fs ih =>
    have ready (key : String) (x : Json) (hx : (key, x) ∈ fs) : Ready x :=
      ih key x hx (distinct.field hx)
    refine ⟨distinct, fun z hz w keys hw => ?_⟩
    cases hz with
    | whole =>
      cases hw.unfold with
      | same => exact readsTo_obj (fun name _ => saysSame_refl fs name) ready keys
      | object restated => exact readsTo_obj restated ready keys
    | field part hx => exact (ready _ _ hx).2 z part w keys hw
  | _ =>
    refine ⟨distinct, fun z hz w keys hw => ?_⟩
    cases hz
    exact readsTo_of_not_obj hw nofun

/-! ## Whole documents -/

theorem readDefinitions_restated {fields more : Keywords} {name : String}
    (named : name ∈ ["definitions", "$defs"])
    (h : Option.Rel (SaysSame Restated name) (fields.lookup name) (more.lookup name))
    (ready : Ready (.obj fields)) (distinct : (Json.obj more).Throughout Json.DistinctKeys)
    {table : List (String × Schema)} (hread : readDefinitions fields name = .ok table) :
    ∃ table', readDefinitions more name = .ok table' ∧
      Fields.Aligned (fun _ => Rekeyed) table table' ∧ (Fields.keys table).Nodup := by
  unfold readDefinitions at hread ⊢
  rcases rel_cases h with ⟨hf, hg⟩ | ⟨x, y, hf, hg, value⟩
  · rw [hf] at hread
    rw [hg, ← Except.ok.inj hread]
    exact ⟨[], rfl, .nil, .nil⟩
  · rw [hf] at hread
    rw [hg]
    have here := ready.field (Fields.mem_of_lookup hf)
    have there := distinct.field (Fields.mem_of_lookup hg)
    have tables {fs gs : List (String × Json)} (hx : x = .obj fs) (hy : y = .obj gs)
        (paired : Fields.Aligned (fun _ => Restated) fs gs) :
        ∃ table', readTable (Pointer.root.field name) gs = .ok table' ∧
          Fields.Aligned (fun _ => Rekeyed) table table' ∧ (Fields.keys table).Nodup := by
      subst hx hy
      obtain ⟨table', again, kept⟩ := readTable_related (here.fields there paired) hread
      have entries : Fields.Aligned
          (fun key x s => read ((Pointer.root.field name).field key) x = .ok s) fs table :=
        readTable_eq_ok_iff.mp hread
      exact ⟨table', readTable_eq_ok_iff.mpr (again.imp fun _ _ h => ⟨h.1, h.2 _⟩), kept,
        entries.keys_eq ▸ here.1.here⟩
    rcases value.of_definitions named with rfl | ⟨fs, gs, rfl, rfl, paired⟩
    · cases x with
      | null =>
        rw [← Except.ok.inj hread]
        exact ⟨[], rfl, .nil, .nil⟩
      | obj fs => exact tables rfl rfl (List.forall₂_same.mpr fun f _ => ⟨rfl, .refl f.2⟩)
      | _ => exact nomatch hread
    · exact tables rfl rfl paired

/-- What has been read from two documents: the same rules in another order, and references that
lead to the same. -/
def SameRoot (s t : Schema) : Prop :=
  s.Rekeyed t ∧ (References.ofRoot s).Rekeyed (References.ofRoot t)

theorem rekeyed_withDefinitions {s t : Schema} (h : s.Rekeyed t) {fs gs : List (String × Schema)}
    (paired : Fields.Aligned (fun _ => Rekeyed) fs gs) (distinct : (Fields.keys fs).Nodup) :
    Rekeyed { s with definitions := fs } { t with definitions := gs } := by
  have definitions : Fields.Tally Rekeyed fs gs :=
    ⟨distinct, paired.keys_eq ▸ distinct, paired.lookup⟩
  exact .intro { h.unfold with definitions }

theorem sameRoot_of_aligned {s t : Schema} (h : s.Rekeyed t)
    (paired : Fields.Aligned (fun _ => Rekeyed) s.definitions t.definitions) : SameRoot s t := by
  have known : Fields.Aligned (fun _ s t => s.identifier = t.identifier ∧ s.Rekeyed t)
      s.definitions t.definitions :=
    paired.imp fun f g hfg => ⟨hfg.1, hfg.2.unfold.identifier, hfg.2⟩
  obtain ⟨size, find?⟩ := References.ofRoot_related h.unfold.identifier known
  exact ⟨h, size, find?⟩

/-- A document that says the same as a schema is a schema. Both have the same rules in another
order, and so has what their references lead to. -/
theorem ofDocument_restated {x y : Json} (h : RestatedRoot x y)
    (distinct : x.Throughout Json.DistinctKeys) (distinct' : y.Throughout Json.DistinctKeys)
    {s : Schema} (hs : ofDocument x = .ok s) : ∃ t, ofDocument y = .ok t ∧ SameRoot s t := by
  have ready := ready_of_distinct x distinct
  obtain ⟨root, hroot, hs⟩ := bind_eq_ok.mp hs
  obtain ⟨root', again, related⟩ := ready.here distinct' h.restated _ root hroot
  have objects {fs gs : List (String × Json)} (hx : x = .obj fs) (hy : y = .obj gs)
      (restated : ∀ name ∈ ["definitions", "$defs"],
        Option.Rel (SaysSame Restated name) (fs.lookup name) (gs.lookup name)) :
      ∃ t, ofDocument y = .ok t ∧ SameRoot s t := by
    subst hx hy
    simp only [bind_eq_ok, pure_eq_ok] at hs
    obtain ⟨older, holder, newer, hnewer, rfl⟩ := hs
    obtain ⟨older', readOlder, pairedOlder, distinctOlder⟩ :=
      readDefinitions_restated (by decide) (restated "$defs" (by decide)) ready distinct' holder
    obtain ⟨newer', readNewer, pairedNewer, -⟩ :=
      readDefinitions_restated (by decide) (restated "definitions" (by decide)) ready distinct'
        hnewer
    have paired := Fields.Aligned.putAll pairedOlder pairedNewer
    refine ⟨{ root' with definitions := Fields.putAll older' newer' }, ?_, sameRoot_of_aligned
      (rekeyed_withDefinitions related paired (Fields.nodup_putAll distinctOlder)) paired⟩
    simp only [ofDocument, bind_eq_ok, pure_eq_ok]
    exact ⟨root', again _, older', readOlder, newer', readNewer, rfl⟩
  cases h with
  | object restated =>
    exact objects rfl rfl fun name named => restated name
      ((by decide : ∀ name ∈ ["definitions", "$defs"], name ∈ rootKeywords) name named)
  | same =>
    cases x with
    | obj fs => exact objects rfl rfl fun name _ => saysSame_refl fs name
    | bool b =>
      obtain rfl := Except.ok.inj hs
      refine ⟨root', bind_eq_ok.mpr ⟨root', again _, rfl⟩, ?_⟩
      refine sameRoot_of_aligned related ?_
      rw [read_definitions hroot, read_definitions (again Pointer.root)]
      exact .nil
    | _ => exact nomatch hroot

end SchemaDrift.Schema
