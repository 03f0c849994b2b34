import SchemaDrift.Proofs.Schema.Fingerprint
import SchemaDrift.Proofs.Schema.Reads

/-!
# Keys of schemas

Prices are remembered under the texts of schemas. The required names of a schema are a set, and its
text may list them in any order, so a schema may have several keys. Names that imitate the rest of a
text, the two kinds of quotation marks and constants that are equal as values all stand in the way
of telling a schema by its key.

* `Schema.Listing` says that a schema is another one but for the order of required names, and
  `Schema.HasKey` that a text is a key of a schema.
* `Schema.Listing.unique`: where required names are sorted, a schema is a listing of one schema
  only.
* `Schema.Priceable` are the schemas that may be priced.
* `Schema.shared_key_iff`: two of them share a key only if they are the same schema.
-/

namespace SchemaDrift.Schema

/-! ## Required names in any order -/

/-- What it takes for a schema to be another one but for the order of required names, if `R` says so
of the schemas in them. -/
structure Relisted (R : Schema → Schema → Prop) (s t : Schema) : Prop where
  kinds : s.kinds = t.kinds
  const : s.const = t.const
  number : s.number = t.number
  text : s.text = t.text
  properties : Fields.Aligned (fun _ => R) s.properties t.properties
  required : s.required.Perm t.required
  additional : Option.Rel R s.additional t.additional
  items : Option.Rel (ItemsMatch R) s.items t.items
  anyOf : Option.Rel (List.Forall₂ R) s.anyOf t.anyOf
  negated : Option.Rel R s.negated t.negated
  reference : s.reference = t.reference
  identifier : s.identifier = t.identifier
  definitions : Fields.Aligned (fun _ => R) s.definitions t.definitions

/-- A schema is another one but for the order of required names, in it and in its parts. -/
def Listing (s t : Schema) : Prop := ∃ R, (∀ u w, R u w → Relisted R u w) ∧ R s t

/-- A text is a key of a schema: the one of the schema with its required names in some order. -/
def HasKey (s : Schema) (key : String) : Prop := ∃ t, Listing t s ∧ t.fingerprint = key

theorem ItemsMatch.refl (rule : Items Schema) : ItemsMatch Eq rule rule := by
  cases rule with
  | every s => exact .every rfl
  | positions ss => exact .positions (List.forall₂_same.mpr fun _ _ => rfl)

theorem Listing.refl (s : Schema) : Listing s s := by
  refine ⟨Eq, ?_, rfl⟩
  rintro u _ rfl
  have table (fs : List (String × Schema)) : Fields.Aligned (fun _ => Eq) fs fs :=
    List.forall₂_same.mpr fun _ _ => ⟨rfl, rfl⟩
  have option {α : Type} {R : α → α → Prop} (refl : ∀ x, R x x) (o : Option α) :
      Option.Rel R o o := by
    cases o with
    | none => exact .none
    | some x => exact .some (refl x)
  exact {
    kinds := rfl
    const := rfl
    number := rfl
    text := rfl
    properties := table _
    required := .refl _
    additional := option (fun _ => rfl) _
    items := option .refl _
    anyOf := option (fun _ => List.forall₂_same.mpr fun _ _ => rfl) _
    negated := option (fun _ => rfl) _
    reference := rfl
    identifier := rfl
    definitions := table _ }

theorem hasKey_fingerprint (s : Schema) : s.HasKey s.fingerprint := ⟨s, .refl s, rfl⟩

/-! ## Sorted names -/

/-- The required names of a schema are in their order. -/
def Sorted (s : Schema) : Prop := s.required.Pairwise (· < ·)

/-- A rule on items is matched with one rule only, if its schemas are each related to one schema. -/
theorem ItemsMatch.unique {R S : Schema → Schema → Prop} {rule left right : Items Schema}
    (every : ∀ s t u, rule = .every s → left = .every t → right = .every u → R s t → S s u → t = u)
    (positions : ∀ ss ts us, rule = .positions ss → left = .positions ts →
      right = .positions us → List.Forall₂ R ss ts → List.Forall₂ S ss us → ts = us)
    (first : ItemsMatch R rule left) (second : ItemsMatch S rule right) : left = right := by
  cases first with
  | every hst =>
    cases second with
    | every hsu => rw [every _ _ _ rfl rfl rfl hst hsu]
  | positions hst =>
    cases second with
    | positions hsu => rw [positions _ _ _ rfl rfl rfl hst hsu]

/-- Where required names are sorted, a schema is a listing of one schema only. The induction is on
the schema that is a listing of two. -/
theorem eq_of_relisted {R S : Schema → Schema → Prop} (hR : ∀ s t, R s t → Relisted R s t)
    (hS : ∀ s t, S s t → Relisted S s t) (s : Schema) :
    ∀ t u, R s t → S s u → t.Throughout Sorted → u.Throughout Sorted → t = u := by
  induction s using child_induction with
  | step s ih =>
    intro t u hst hsu sorted sorted'
    have left := hR s t hst
    have right := hS s u hsu
    have child {a b c : Schema} (ha : Child a s) (hb : Child b t) (hc : Child c u) (hab : R a b)
        (hac : S a c) : b = c := ih a ha b c hab hac (sorted.child hb) (sorted'.child hc)
    have required : t.required = u.required :=
      sorted.here.eq_of_mem_iff sorted'.here fun _ =>
        (left.required.symm.trans right.required).mem_iff
    have properties : t.properties = u.properties :=
      left.properties.unique (fun name a b c ha hb hc hab hac =>
        child (.property ha) (.property hb) (.property hc) hab hac) right.properties
    have additional : t.additional = u.additional :=
      optionRel_unique (fun a b c ha hb hc hab hac =>
        child (.additional ha) (.additional hb) (.additional hc) hab hac)
        left.additional right.additional
    have items : t.items = u.items := by
      refine optionRel_unique (fun rule first second hrule hfirst hsecond => ?_) left.items
        right.items
      refine ItemsMatch.unique (fun a b c ha hb hc => ?_) fun as bs cs has hbs hcs => ?_
      · subst ha hb hc
        exact child (.every hrule) (.every hfirst) (.every hsecond)
      · subst has hbs hcs
        exact forall₂_unique fun a ha b hb c hc hab hac =>
          child (.position hrule ha) (.position hfirst hb) (.position hsecond hc) hab hac
    have anyOf : t.anyOf = u.anyOf := by
      refine optionRel_unique (fun as bs cs has hbs hcs => ?_) left.anyOf right.anyOf
      exact forall₂_unique fun a ha b hb c hc hab hac =>
        child (.branch has ha) (.branch hbs hb) (.branch hcs hc) hab hac
    have negated : t.negated = u.negated :=
      optionRel_unique (fun a b c ha hb hc hab hac =>
        child (.negated ha) (.negated hb) (.negated hc) hab hac)
        left.negated right.negated
    have definitions : t.definitions = u.definitions :=
      left.definitions.unique (fun name a b c ha hb hc hab hac =>
        child (.definition ha) (.definition hb) (.definition hc) hab hac) right.definitions
    have kinds := left.kinds.symm.trans right.kinds
    have const := left.const.symm.trans right.const
    have number := left.number.symm.trans right.number
    have text := left.text.symm.trans right.text
    have reference := left.reference.symm.trans right.reference
    have identifier := left.identifier.symm.trans right.identifier
    cases t
    cases u
    rw [mk.injEq]
    exact ⟨kinds, const, number, text, properties, required, additional, items, anyOf, negated,
      reference, identifier, definitions⟩

theorem Listing.unique {s t u : Schema} (first : Listing s t) (second : Listing s u)
    (sorted : t.Throughout Sorted) (sorted' : u.Throughout Sorted) : t = u := by
  obtain ⟨R, hR, hst⟩ := first
  obtain ⟨S, hS, hsu⟩ := second
  exact eq_of_relisted hR hS s t u hst hsu sorted sorted'

/-! ## Schemas that may be priced -/

theorem sorted_everything : everything.Throughout Sorted :=
  throughout_iff.mpr ⟨.nil, fun _ hu => absurd hu not_child_everything⟩

theorem sorted_nothing : nothing.Throughout Sorted :=
  throughout_iff.mpr ⟨.nil, fun _ hu => eq_everything_of_child_nothing hu ▸ sorted_everything⟩

/-- A schema is read with its required names as a set. -/
theorem sorted_of_read {here : Pointer} {x : Json} {s : Schema} (h : read here x = .ok s) :
    s.Sorted := by
  cases x with
  | bool b =>
    cases b with
    | true => exact Except.ok.inj h ▸ sorted_everything.here
    | false => exact Except.ok.inj h ▸ sorted_nothing.here
  | obj fields =>
    obtain ⟨names, hnames, required⟩ := (read_obj_iff.mp h).required
    rw [Sorted, required]
    rw [keyword_eq_ok_iff] at hnames
    generalize fields.lookup "required" = value at hnames
    cases hnames with
    | none => exact .nil
    | some set =>
      unfold readRequired at set
      split at set
      · split at set
        · rw [← Except.ok.inj set]
          exact Names.ascending_ofList _
        · exact nomatch set
      · exact nomatch set
  | _ => exact nomatch h

theorem sorted_of_document {x : Json} {s : Schema} (h : ofDocument x = .ok s) :
    s.Throughout Sorted := by
  refine throughout_iff.mpr ⟨?_, fun u hu => ?_⟩
  · obtain ⟨root, definitions, readAs, rfl, -⟩ := root_of_document h
    have sorted : root.Sorted := sorted_of_read readAs
    exact sorted
  · obtain ⟨place, y, readAs⟩ := child_of_document h hu
    exact throughout_of_read (fun _ _ _ => sorted_of_read) u readAs

/-- The schemas that may be priced: those that stand in a document that was read, what such a schema
says of a kind, and the one that lists of branches are filled up with. -/
inductive Priceable : Schema → Prop where
  | read {x : Json} {root s : Schema} : ofDocument x = .ok root → Part s root → Priceable s
  | projected {s : Schema} (k : Kind) : Priceable s → Priceable (s.project k)
  | filling : Priceable nothing

theorem Priceable.sorted {s : Schema} (h : Priceable s) : s.Throughout Sorted := by
  induction h with
  | read readAs part => exact (sorted_of_document readAs).part part
  | projected k _ ih =>
    refine throughout_iff.mpr ⟨?_, fun u hu => ih.child (child_project hu)⟩
    cases k with
    | object => exact ih.here
    | _ => exact .nil
  | filling => exact sorted_nothing

/-! ## Keys -/

/-- Two schemas that may be priced share a key only if they are the same: the same rules in the same
order, constants with the same numbers in the same spelling, and the same sets of required names. -/
theorem shared_key_iff {s t : Schema} (hs : Priceable s) (ht : Priceable t) :
    (∃ key, s.HasKey key ∧ t.HasKey key) ↔ s = t := by
  constructor
  · rintro ⟨key, ⟨u, listed, rfl⟩, w, listed', same⟩
    obtain rfl := fingerprint_injective same
    exact listed.unique listed' hs.sorted ht.sorted
  · rintro rfl
    exact ⟨s.fingerprint, s.hasKey_fingerprint, s.hasKey_fingerprint⟩

/-- Texts with a format and a pattern. -/
def patterned : Json := .obj [("format", .str "x"), ("pattern", .str "y")]

/-- Texts with a format that goes on like a pattern. -/
def imitating : Json := .obj [("format", .str "x', pattern='y")]

/-- What the two say of texts has no key in common. -/
theorem shared_key_iff_imitating :
    ∃ s t, ofDocument patterned = .ok s ∧ ofDocument imitating = .ok t ∧
      Priceable (s.project .string) ∧ Priceable (t.project .string) ∧
      ((∃ key, (s.project .string).HasKey key ∧ (t.project .string).HasKey key) ↔
        s.project .string = t.project .string) ∧
      ¬∃ key, (s.project .string).HasKey key ∧ (t.project .string).HasKey key := by
  obtain ⟨s, hs, text⟩ : ∃ s, ofDocument patterned = .ok s ∧ s.text.pattern = some "y" :=
    ⟨_, rfl, rfl⟩
  obtain ⟨t, ht, text'⟩ : ∃ t, ofDocument imitating = .ok t ∧ t.text.pattern = none :=
    ⟨_, rfl, rfl⟩
  have left : Priceable (s.project .string) := .projected _ (.read hs (.whole s))
  have right : Priceable (t.project .string) := .projected _ (.read ht (.whole t))
  have only := shared_key_iff left right
  refine ⟨s, t, hs, ht, left, right, only, fun shared => ?_⟩
  have same : s.text.pattern = t.text.pattern :=
    congrArg (fun u => u.text.pattern) (only.mp shared)
  rw [text, text'] at same
  exact nomatch same

end SchemaDrift.Schema
