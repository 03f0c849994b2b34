import Mathlib.Data.List.Perm.Basic
import Mathlib.Data.Option.Basic
import SchemaDrift.Proofs.Schema.Rewritten
import SchemaDrift.Schema.Reading

/-!
# What reading a document comes to

Where a value stands in a document matters only to the faults that reading it may meet.

* `Schema.readParts_eq` says what each keyword that holds schemas contributes.
* `Schema.assemble_eq_ok_iff` says when the rules of an object can be put together, and to which
  schema.
* `Schema.readTable_eq_ok_iff` and `Schema.forall₂_of_readList` say the same of tables and lists.
* `Schema.ReadsTo` says that a document is read if another one is, and to a related schema;
  `Schema.readList_related` and its companions carry this over to lists, tables and keywords.
* `Schema.child_of_read` and `Schema.child_of_document`: what stands in a schema that was read was
  read itself.
-/

namespace SchemaDrift.Schema

/-! ## Results -/

section

variable {ε α β : Type}

theorem bind_eq_ok {x : Except ε α} {f : α → Except ε β} {b : β} :
    (x >>= f) = .ok b ↔ ∃ a, x = .ok a ∧ f a = .ok b := by
  cases x <;> simp [bind, Except.bind]

theorem map_eq_ok {x : Except ε α} {f : α → β} {b : β} :
    (f <$> x) = .ok b ↔ ∃ a, x = .ok a ∧ f a = b := by
  cases x <;> simp [Functor.map, Except.map]

theorem pure_eq_ok {a b : α} : (pure a : Except ε α) = .ok b ↔ a = b := by
  simp [pure, Except.pure]

end

/-- A keyword that is absent is read to nothing. -/
theorem keyword_eq {α : Type} (fields : Keywords) (name : String) (read : Json → Except Fault α) :
    keyword fields name read = (fields.lookup name).elim (.ok none) fun x => some <$> read x := by
  unfold keyword
  rcases fields.lookup name with _ | x
  · rfl
  · rw [Option.elim_some]
    dsimp only
    rcases read x with e | a <;> rfl

theorem keyword_eq_ok_iff {α : Type} {fields : Keywords} {name : String}
    {read : Json → Except Fault α} {v : Option α} :
    keyword fields name read = .ok v ↔
      Option.Rel (fun x a => read x = .ok a) (fields.lookup name) v := by
  unfold keyword
  constructor
  · intro h
    split at h
    · next absent =>
      rw [← Except.ok.inj h, absent]
      exact .none
    · next x found =>
      split at h
      · next a ha =>
        rw [← Except.ok.inj h, found]
        exact .some ha
      · exact nomatch h
  · intro h
    generalize fields.lookup name = found at h
    cases h with
    | none => rfl
    | some ha =>
      dsimp only
      rw [ha]

/-! ## Keywords that hold schemas -/

def propertiesOf (here : Pointer) : Option Json → Except Fault (List (String × Schema))
  | none => .ok []
  | some (.obj table) => readTable (here.field "properties") table
  | some _ => .error (.malformed (.noObject "properties") (here.field "properties"))

def schemaOf (here : Pointer) (name : String) : Option Json → Except Fault (Option Schema)
  | none => .ok none
  | some value => some <$> read (here.field name) value

def itemsOf (here : Pointer) : Option Json → Except Fault (Option (Items Schema))
  | none => .ok none
  | some (.arr xs) => (some ∘ .positions) <$> readList (here.field "items") 0 xs
  | some rule => (some ∘ .every) <$> read (here.field "items") rule

def anyOfOf (here : Pointer) : Option Json → Except Fault (Option (List Schema))
  | none => .ok none
  | some (.arr xs) => some <$> readList (here.field "anyOf") 0 xs
  | some _ => .error (.malformed (.noArray "anyOf") (here.field "anyOf"))

/-- Of a repeated keyword the first value counts. -/
theorem readParts_eq (here : Pointer) (fields : Keywords) :
    readParts here fields =
      { properties := propertiesOf here (fields.lookup "properties")
        additional := schemaOf here "additionalProperties" (fields.lookup "additionalProperties")
        items := itemsOf here (fields.lookup "items")
        anyOf := anyOfOf here (fields.lookup "anyOf")
        negated := schemaOf here "not" (fields.lookup "not") } := by
  induction fields with
  | nil => rfl
  | cons f rest ih =>
    obtain ⟨name, value⟩ := f
    rw [readParts.eq_def]
    dsimp only
    rw [ih]
    simp only [Fields.lookup_cons]
    by_cases properties : name = "properties"
    · subst properties
      cases value <;> rfl
    by_cases additional : name = "additionalProperties"
    · subst additional
      rfl
    by_cases items : name = "items"
    · subst items
      cases value <;> rfl
    by_cases anyOf : name = "anyOf"
    · subst anyOf
      cases value <;> rfl
    by_cases negated : name = "not"
    · subst negated
      rfl
    · simp only [properties, additional, items, anyOf, negated, Ne.symm properties,
        Ne.symm additional, Ne.symm items, Ne.symm anyOf, Ne.symm negated, if_false]

/-! ## Rules put together -/

/-- A schema holds what the keywords of an object say. -/
structure Assembled (here : Pointer) (fields : Keywords) (parts : Parts) (s : Schema) : Prop where
  kinds : keyword fields "type" (readType (here.field "type")) = .ok s.kinds
  const : fields.lookup "const" = s.const
  number : readNumberRules here fields = .ok s.number
  text : readStringRules here fields = .ok s.text
  properties : parts.properties = .ok s.properties
  required : ∃ names,
    keyword fields "required" (readRequired (here.field "required")) = .ok names ∧
      s.required = names.getD []
  additional : parts.additional = .ok s.additional
  items : parts.items = .ok s.items
  anyOf : parts.anyOf = .ok s.anyOf
  negated : parts.negated = .ok s.negated
  reference : keyword fields "$ref" (readString "$ref" (here.field "$ref")) = .ok s.reference
  identifier : keyword fields "$id" (readString "$id" (here.field "$id")) = .ok s.identifier
  definitions : s.definitions = []

theorem assemble_eq_ok_iff {here : Pointer} {fields : Keywords} {parts : Parts} {s : Schema} :
    assemble here fields parts = .ok s ↔ Assembled here fields parts s := by
  simp only [assemble, bind_eq_ok, pure_eq_ok]
  constructor
  · rintro ⟨kinds, hkinds, number, hnumber, text, htext, properties, hproperties, required,
      hrequired, additional, hadditional, items, hitems, anyOf, hanyOf, negated, hnegated,
      reference, hreference, identifier, hidentifier, rfl⟩
    exact ⟨hkinds, rfl, hnumber, htext, hproperties, ⟨required, hrequired, rfl⟩, hadditional,
      hitems, hanyOf, hnegated, hreference, hidentifier, rfl⟩
  · rintro ⟨kinds, const, number, text, properties, ⟨names, required, named⟩, additional, items,
      anyOf, negated, reference, identifier, definitions⟩
    refine ⟨_, kinds, _, number, _, text, _, properties, _, required, _, additional, _, items, _,
      anyOf, _, negated, _, reference, _, identifier, ?_⟩
    rw [const, ← named, ← definitions]
    cases s
    rfl

theorem read_obj_iff {here : Pointer} {fields : Keywords} {s : Schema} :
    read here (.obj fields) = .ok s ↔ Assembled here fields (readParts here fields) s := by
  rw [read, assemble_eq_ok_iff]

/-! ## Tables and lists -/

theorem readTable_eq_ok_iff {here : Pointer} {fs : List (String × Json)}
    {table : List (String × Schema)} :
    readTable here fs = .ok table ↔
      List.Forall₂ (fun f g => f.1 = g.1 ∧ read (here.field f.1) f.2 = .ok g.2) fs table := by
  induction fs generalizing table with
  | nil =>
    rw [readTable, List.forall₂_nil_left_iff]
    exact ⟨fun h => (Except.ok.inj h).symm, fun h => by rw [h]⟩
  | cons f rest ih =>
    obtain ⟨name, value⟩ := f
    simp only [readTable, bind_eq_ok, pure_eq_ok, List.forall₂_cons_left_iff]
    constructor
    · rintro ⟨s, hs, more, hmore, rfl⟩
      exact ⟨(name, s), more, ⟨rfl, hs⟩, ih.mp hmore, rfl⟩
    · rintro ⟨⟨_, s⟩, more, ⟨rfl, hs⟩, hmore, rfl⟩
      exact ⟨s, hs, more, ih.mpr hmore, rfl⟩

/-- A list that was read is made up of schemas that were read, each at its own place. -/
theorem forall₂_of_readList {here : Pointer} {position : Nat} {xs : List Json} {ss : List Schema}
    (h : readList here position xs = .ok ss) :
    List.Forall₂ (fun x s => ∃ place, read place x = .ok s) xs ss := by
  induction xs generalizing position ss with
  | nil =>
    rw [readList] at h
    rw [← Except.ok.inj h]
    exact .nil
  | cons x xs ih =>
    simp only [readList, bind_eq_ok, pure_eq_ok] at h
    obtain ⟨s, hs, more, hmore, rfl⟩ := h
    exact .cons ⟨_, hs⟩ (ih hmore)

/-- A list of values that can be read anywhere can be read. -/
theorem readList_of_forall₂ (here : Pointer) (position : Nat) {xs : List Json} {ss : List Schema}
    (h : List.Forall₂ (fun x s => ∀ place, read place x = .ok s) xs ss) :
    readList here position xs = .ok ss := by
  induction h generalizing position with
  | nil => rfl
  | cons first _ ih =>
    simp only [readList, bind_eq_ok, pure_eq_ok]
    exact ⟨_, first _, _, ih _, rfl⟩

/-! ## Rules without further schemas, read elsewhere -/

theorem readKind_eq_ok_iff {here : Pointer} {x : Json} {k : Kind} :
    readKind here x = .ok k ↔ x = .str k.name := by
  constructor
  · intro h
    unfold readKind at h
    split at h
    · next name =>
      split at h
      · next l found =>
        obtain rfl := Except.ok.inj h
        unfold Kind.ofName? at found
        have named := List.find?_some found
        rw [eq_of_beq named]
      · exact nomatch h
    · exact nomatch h
  · rintro rfl
    unfold readKind
    dsimp only
    rw [Kind.ofName?_name]

theorem readKinds_eq_ok_iff {here : Pointer} {xs : List Json} {ks : List Kind} :
    readKinds here xs = .ok ks ↔ xs = ks.map fun k => .str k.name := by
  induction xs generalizing ks with
  | nil =>
    rw [readKinds, eq_comm (a := []), List.map_eq_nil_iff]
    exact ⟨fun h => (Except.ok.inj h).symm, fun h => by rw [h]⟩
  | cons x xs ih =>
    simp only [readKinds, bind_eq_ok, pure_eq_ok, readKind_eq_ok_iff, ih]
    constructor
    · rintro ⟨k, rfl, ls, rfl, rfl⟩
      rfl
    · intro h
      cases ks with
      | nil => exact nomatch h
      | cons k ks =>
        obtain ⟨first, rest⟩ := List.cons.inj h
        exact ⟨k, first, ks, rest, rfl⟩

theorem strings?_eq_some_iff {xs : List Json} {names : List String} :
    strings? xs = some names ↔ xs = names.map .str := by
  induction xs generalizing names with
  | nil => simp [strings?, eq_comm]
  | cons x xs ih =>
    cases x with
    | str s =>
      rw [strings?, Option.map_eq_some_iff]
      constructor
      · rintro ⟨rest, hrest, rfl⟩
        rw [ih.mp hrest]
        rfl
      · intro h
        cases names with
        | nil => exact nomatch h
        | cons n names =>
          obtain ⟨first, rest⟩ := List.cons.inj h
          exact ⟨names, ih.mpr rest, by rw [Json.str.inj first]⟩
    | _ => cases names <;> simp [strings?]

theorem readType_elsewhere {here : Pointer} {x : Json} {ks : List Kind}
    (h : readType here x = .ok ks) (there : Pointer) : readType there x = .ok ks := by
  unfold readType at h ⊢
  split at h <;> rw [readKinds_eq_ok_iff] at h ⊢ <;> exact h

/-- The names in a list of kinds may come in any order. -/
theorem readType_perm {here : Pointer} {xs ys : List Json} {ks : List Kind}
    (h : readType here (.arr xs) = .ok ks) (arranged : xs.Perm ys) :
    ∃ ls, (∀ there, readType there (.arr ys) = .ok ls) ∧ ks.Perm ls := by
  have named : List.Forall₂ (fun x (k : Kind) => x = .str k.name) xs ks := by
    rw [readKinds_eq_ok_iff.mp h, List.forall₂_map_left_iff, List.forall₂_same]
    exact fun _ _ => rfl
  obtain ⟨ls, named', arranged'⟩ := List.perm_comp_forall₂ arranged.symm named
  refine ⟨ls, fun there => readKinds_eq_ok_iff.mpr ?_, arranged'.symm⟩
  rw [← List.forall₂_eq_eq_eq, List.forall₂_map_right_iff]
  exact named'

theorem readBound_elsewhere {name : String} {here : Pointer} {x : Json} {v : Double}
    (h : readBound name here x = .ok v) (there : Pointer) : readBound name there x = .ok v := by
  unfold readBound at h ⊢
  split at h
  · exact h
  · split at h
    · next finite => rw [← h, if_pos finite]
    · exact nomatch h
  · exact nomatch h

/-- Bounds are finite. -/
theorem readBound_same {name : String} {here : Pointer} {x : Json} {v : Double}
    (h : readBound name here x = .ok v) : (Number.double v).same (.double v) = true := by
  have finite : v.isFinite = true := by
    unfold readBound at h
    split at h
    · dsimp only at h
      split at h
      · next finite => rwa [← Except.ok.inj h]
      · exact nomatch h
    · split at h
      · next finite => rwa [← Except.ok.inj h]
      · exact nomatch h
    · exact nomatch h
  refine Number.same_self fun isNan => ?_
  rw [Number.double.inj isNan] at finite
  exact nomatch finite

theorem readLength_elsewhere {name : String} {here : Pointer} {x : Json} {n : Nat}
    (h : readLength name here x = .ok n) (there : Pointer) : readLength name there x = .ok n := by
  unfold readLength at h ⊢
  dsimp only at h ⊢
  split at h
  · exact h
  · exact nomatch h

theorem readString_elsewhere {name : String} {here : Pointer} {x : Json} {v : String}
    (h : readString name here x = .ok v) (there : Pointer) : readString name there x = .ok v := by
  unfold readString at h ⊢
  split at h
  · exact h
  · exact nomatch h

theorem readRequired_elsewhere {here : Pointer} {x : Json} {names : List String}
    (h : readRequired here x = .ok names) (there : Pointer) :
    readRequired there x = .ok names := by
  unfold readRequired at h ⊢
  split at h
  · split at h
    · exact h
    · exact nomatch h
  · exact nomatch h

theorem keyword_elsewhere {α : Type} {fields more : Keywords} {name : String}
    {read read' : Json → Except Fault α} {v : Option α} (h : keyword fields name read = .ok v)
    (same : fields.lookup name = more.lookup name)
    (again : ∀ x a, read x = .ok a → read' x = .ok a) : keyword more name read' = .ok v := by
  rw [keyword_eq_ok_iff] at h ⊢
  rw [← same]
  generalize fields.lookup name = found at h
  cases h with
  | none => exact .none
  | some ha => exact .some (again _ _ ha)

/-- The keywords of bounds and of rules on strings. -/
def plainKeywords : List String :=
  ["minimum", "maximum", "exclusiveMinimum", "exclusiveMaximum", "format", "pattern", "minLength",
    "maxLength"]

/-- The keywords whose values hold schemas or have an order that does not matter. -/
def structuralKeywords : List String :=
  ["type", "anyOf", "properties", "additionalProperties", "items", "not", "definitions", "$defs"]

/-- Two objects say the same under all other keywords. -/
def SameElsewhere (fields more : Keywords) : Prop :=
  ∀ name, name ∉ structuralKeywords → fields.lookup name = more.lookup name

theorem SameElsewhere.plain {fields more : Keywords} (h : SameElsewhere fields more) :
    ∀ name ∈ plainKeywords, fields.lookup name = more.lookup name := by
  have apart : ∀ name ∈ plainKeywords, name ∉ structuralKeywords := by decide
  exact fun name plain => h name (apart name plain)

theorem readNumberRules_elsewhere {here : Pointer} {fields more : Keywords} {rules : NumberRules}
    (h : readNumberRules here fields = .ok rules) (there : Pointer)
    (same : ∀ name ∈ plainKeywords, fields.lookup name = more.lookup name) :
    readNumberRules there more = .ok rules := by
  simp only [readNumberRules, bind_eq_ok, pure_eq_ok] at h ⊢
  obtain ⟨a, ha, b, hb, c, hc, d, hd, rfl⟩ := h
  have bound {name : String} {v : Option Double} (plain : name ∈ plainKeywords)
      (h : keyword fields name (readBound name (here.field name)) = .ok v) :
      keyword more name (readBound name (there.field name)) = .ok v :=
    keyword_elsewhere h (same name plain) fun _ _ h => readBound_elsewhere h _
  exact ⟨a, bound (by decide) ha, b, bound (by decide) hb, c, bound (by decide) hc, d,
    bound (by decide) hd, rfl⟩

theorem boundsAlike_self {fields : Keywords} {name : String} {here : Pointer} {v : Option Double}
    (h : keyword fields name (readBound name here) = .ok v) : boundsAlike v v = true := by
  rw [keyword_eq_ok_iff] at h
  generalize fields.lookup name = found at h
  cases h with
  | none => rfl
  | some ha => exact readBound_same ha

/-- Bounds that were read are alike themselves. -/
theorem readNumberRules_alike {here : Pointer} {fields : Keywords} {rules : NumberRules}
    (h : readNumberRules here fields = .ok rules) : rules.alike rules = true := by
  simp only [readNumberRules, bind_eq_ok, pure_eq_ok] at h
  obtain ⟨a, ha, b, hb, c, hc, d, hd, rfl⟩ := h
  simp only [NumberRules.alike, boundsAlike_self ha, boundsAlike_self hb, boundsAlike_self hc,
    boundsAlike_self hd, Bool.and_self]

theorem readStringRules_elsewhere {here : Pointer} {fields more : Keywords} {rules : StringRules}
    (h : readStringRules here fields = .ok rules) (there : Pointer)
    (same : ∀ name ∈ plainKeywords, fields.lookup name = more.lookup name) :
    readStringRules there more = .ok rules := by
  simp only [readStringRules, bind_eq_ok, pure_eq_ok] at h ⊢
  obtain ⟨a, ha, b, hb, c, hc, d, hd, rfl⟩ := h
  refine ⟨a, ?_, b, ?_, c, ?_, d, ?_, rfl⟩
  · exact keyword_elsewhere ha (same _ (by decide)) fun _ _ h => readString_elsewhere h _
  · exact keyword_elsewhere hb (same _ (by decide)) fun _ _ h => readString_elsewhere h _
  · exact keyword_elsewhere hc (same _ (by decide)) fun _ _ h => readLength_elsewhere h _
  · exact keyword_elsewhere hd (same _ (by decide)) fun _ _ h => readLength_elsewhere h _

/-! ## Documents that are read to related schemas -/

section

variable {K : Schema → Schema → Prop} {here : Pointer}

/-- If the first document is read, then so is the second one, wherever it stands, and the schemas
are related. -/
def ReadsTo (K : Schema → Schema → Prop) (x y : Json) : Prop :=
  ∀ here s, read here x = .ok s → ∃ t, (∀ there, read there y = .ok t) ∧ K s t

theorem readTable_related {fs gs : List (String × Json)}
    (h : Fields.Aligned (fun _ => ReadsTo K) fs gs) {table : List (String × Schema)}
    (hread : readTable here fs = .ok table) :
    ∃ more, Fields.Aligned (fun _ x t => ∀ there, read there x = .ok t) gs more ∧
      Fields.Aligned (fun _ => K) table more := by
  refine exists_forall₂ h (readTable_eq_ok_iff.mp hread) fun f _ g s hg hs => ?_
  obtain ⟨t, again, related⟩ := hg.2 _ _ hs.2
  exact ⟨(g.1, t), ⟨rfl, again⟩, hs.1.symm.trans hg.1, related⟩

theorem readList_related {xs ys : List Json} (h : List.Forall₂ (ReadsTo K) xs ys) {position : Nat}
    {ss : List Schema} (hread : readList here position xs = .ok ss) :
    ∃ ts, List.Forall₂ (fun x t => ∀ there, read there x = .ok t) ys ts ∧ List.Forall₂ K ss ts := by
  refine exists_forall₂ h (forall₂_of_readList hread) fun x _ y s hy hs => ?_
  obtain ⟨place, hs⟩ := hs
  exact hy place s hs

theorem schemaOf_related {name : String} {u v : Option Json} (h : Option.Rel (ReadsTo K) u v)
    {s : Option Schema} (hread : schemaOf here name u = .ok s) :
    ∃ t, (∀ there, schemaOf there name v = .ok t) ∧ Option.Rel K s t := by
  cases h with
  | none =>
    rw [← Except.ok.inj hread]
    exact ⟨none, fun _ => rfl, .none⟩
  | some reads =>
    obtain ⟨a, ha, rfl⟩ := map_eq_ok.mp hread
    obtain ⟨b, again, related⟩ := reads _ a ha
    exact ⟨some b, fun there => map_eq_ok.mpr ⟨b, again _, rfl⟩, .some related⟩

theorem itemsOf_every {x : Json} (h : ∀ xs, x ≠ .arr xs) :
    itemsOf here (some x) = (some ∘ .every) <$> read (here.field "items") x := by
  cases x with
  | arr xs => exact absurd rfl (h xs)
  | _ => rfl

/-- Both documents have rules for positions, or both have one rule. -/
theorem itemsOf_related {x y : Json} (h : (∃ xs ys, x = .arr xs ∧ y = .arr ys ∧
      List.Forall₂ (ReadsTo K) xs ys) ∨ ReadsTo K x y ∧ (∀ xs, x ≠ .arr xs) ∧ ∀ ys, y ≠ .arr ys)
    {s : Option (Items Schema)} (hread : itemsOf here (some x) = .ok s) :
    ∃ t, (∀ there, itemsOf there (some y) = .ok t) ∧ Option.Rel (ItemsMatch K) s t := by
  rcases h with ⟨xs, ys, rfl, rfl, paired⟩ | ⟨reads, one, one'⟩
  · obtain ⟨as, ha, rfl⟩ := map_eq_ok.mp hread
    obtain ⟨ts, again, related⟩ := readList_related paired ha
    exact ⟨some (.positions ts), fun there =>
      map_eq_ok.mpr ⟨ts, readList_of_forall₂ _ _ again, rfl⟩, .some (.positions related)⟩
  · rw [itemsOf_every one] at hread
    obtain ⟨a, ha, rfl⟩ := map_eq_ok.mp hread
    obtain ⟨b, again, related⟩ := reads _ a ha
    refine ⟨some (.every b), fun there => ?_, .some (.every related)⟩
    rw [itemsOf_every one']
    exact map_eq_ok.mpr ⟨b, again _, rfl⟩

end

/-- Definitions are read at the root of a document only. -/
theorem read_definitions {here : Pointer} {x : Json} {s : Schema} (h : read here x = .ok s) :
    s.definitions = [] := by
  cases x with
  | bool b => cases b <;> (obtain rfl := Except.ok.inj h; rfl)
  | obj fs => exact (read_obj_iff.mp h).definitions
  | _ => exact nomatch h

/-- The bounds of a schema that was read are alike themselves. -/
theorem number_alike_of_read {here : Pointer} {x : Json} {s : Schema} (h : read here x = .ok s) :
    s.number.alike s.number = true := by
  cases x with
  | bool b =>
    cases b with
    | true =>
      obtain rfl := Except.ok.inj h
      rfl
    | false =>
      obtain rfl := Except.ok.inj h
      rfl
  | obj fields => exact readNumberRules_alike (read_obj_iff.mp h).number
  | _ => exact nomatch h

/-! ## Parts -/

theorem mem_of_readTable {here : Pointer} {fs : List (String × Json)}
    {table : List (String × Schema)} (h : readTable here fs = .ok table) {f : String × Schema}
    (hf : f ∈ table) : ∃ place x, read place x = .ok f.2 := by
  obtain ⟨i, hi, rfl⟩ := List.getElem_of_mem hf
  obtain ⟨sized, paired⟩ := List.forall₂_iff_get.mp (readTable_eq_ok_iff.mp h)
  exact ⟨_, _, (paired i (by rw [sized]; exact hi) hi).2⟩

theorem mem_of_readList {here : Pointer} {position : Nat} {xs : List Json} {ss : List Schema}
    (h : readList here position xs = .ok ss) {s : Schema} (hs : s ∈ ss) :
    ∃ place x, read place x = .ok s := by
  obtain ⟨i, hi, rfl⟩ := List.getElem_of_mem hs
  obtain ⟨sized, paired⟩ := List.forall₂_iff_get.mp (forall₂_of_readList h)
  obtain ⟨place, readAs⟩ := paired i (by rw [sized]; exact hi) hi
  exact ⟨place, _, readAs⟩

theorem of_schemaOf {here : Pointer} {name : String} {value : Option Json} {s : Schema}
    (h : schemaOf here name value = .ok (some s)) : ∃ place x, read place x = .ok s := by
  cases value with
  | none => exact nomatch h
  | some x =>
    obtain ⟨t, readAs, same⟩ := map_eq_ok.mp h
    obtain rfl := Option.some.inj same
    exact ⟨_, x, readAs⟩

/-- Whatever stands in a schema that was read was read itself. -/
theorem child_of_read {here : Pointer} {x : Json} {s u : Schema} (h : read here x = .ok s)
    (hu : Child u s) : ∃ place y, read place y = .ok u := by
  cases x with
  | bool b =>
    cases b with
    | true =>
      obtain rfl := Except.ok.inj h
      exact absurd hu not_child_everything
    | false =>
      obtain rfl := Except.ok.inj h
      obtain rfl := eq_everything_of_child_nothing hu
      exact ⟨here, .bool true, rfl⟩
  | obj fields =>
    have made := read_obj_iff.mp h
    rw [readParts_eq] at made
    cases hu with
    | property declared =>
      have properties := made.properties
      unfold propertiesOf at properties
      split at properties
      · rw [← Except.ok.inj properties] at declared
        exact absurd declared List.not_mem_nil
      · exact mem_of_readTable properties declared
      · exact nomatch properties
    | additional hu => exact of_schemaOf (hu ▸ made.additional)
    | every hu =>
      have items := hu ▸ made.items
      unfold itemsOf at items
      split at items
      · exact nomatch items
      · obtain ⟨_, -, other⟩ := map_eq_ok.mp items
        exact nomatch other
      · obtain ⟨v, readAs, same⟩ := map_eq_ok.mp items
        obtain rfl := Items.every.inj (Option.some.inj same)
        exact ⟨_, _, readAs⟩
    | position hus hu =>
      have items := hus ▸ made.items
      unfold itemsOf at items
      split at items
      · exact nomatch items
      · obtain ⟨vs, listed, same⟩ := map_eq_ok.mp items
        obtain rfl := Items.positions.inj (Option.some.inj same)
        exact mem_of_readList listed hu
      · obtain ⟨_, -, other⟩ := map_eq_ok.mp items
        exact nomatch other
    | branch hus hu =>
      have anyOf := hus ▸ made.anyOf
      unfold anyOfOf at anyOf
      split at anyOf
      · exact nomatch anyOf
      · obtain ⟨vs, listed, same⟩ := map_eq_ok.mp anyOf
        obtain rfl := Option.some.inj same
        exact mem_of_readList listed hu
      · exact nomatch anyOf
    | negated hu => exact of_schemaOf (hu ▸ made.negated)
    | definition hu =>
      rw [made.definitions] at hu
      exact absurd hu List.not_mem_nil
  | _ => exact nomatch h

theorem mem_of_readDefinitions {fields : Keywords} {name : String}
    {table : List (String × Schema)} (h : readDefinitions fields name = .ok table)
    {f : String × Schema} (hf : f ∈ table) : ∃ place x, read place x = .ok f.2 := by
  unfold readDefinitions at h
  split at h
  · rw [← Except.ok.inj h] at hf
    exact absurd hf List.not_mem_nil
  · rw [← Except.ok.inj h] at hf
    exact absurd hf List.not_mem_nil
  · exact mem_of_readTable h hf
  · exact nomatch h

/-- A document is read as a schema is, apart from its definitions, each of which was read. -/
theorem root_of_document {x : Json} {s : Schema} (h : ofDocument x = .ok s) :
    ∃ root definitions, read .root x = .ok root ∧ s = { root with definitions } ∧
      ∀ f ∈ definitions, ∃ place y, read place y = .ok f.2 := by
  unfold ofDocument at h
  obtain ⟨root, readAs, h⟩ := bind_eq_ok.mp h
  split at h
  · obtain ⟨older, holder, h⟩ := bind_eq_ok.mp h
    obtain ⟨newer, hnewer, h⟩ := bind_eq_ok.mp h
    refine ⟨root, _, readAs, (pure_eq_ok.mp h).symm, fun f hf => ?_⟩
    rcases Fields.mem_putAll hf with added | kept
    · exact mem_of_readDefinitions hnewer added
    · exact mem_of_readDefinitions holder kept
  · obtain rfl := pure_eq_ok.mp h
    refine ⟨root, [], readAs, ?_, nofun⟩
    have none := read_definitions readAs
    cases root
    cases none
    rfl

/-- Whatever stands in the schema of a document was read. -/
theorem child_of_document {x : Json} {s u : Schema} (h : ofDocument x = .ok s) (hu : Child u s) :
    ∃ place y, read place y = .ok u := by
  obtain ⟨root, definitions, readAs, rfl, defined⟩ := root_of_document h
  cases hu with
  | property hu => exact child_of_read readAs (.property hu)
  | additional hu => exact child_of_read readAs (.additional hu)
  | every hu => exact child_of_read readAs (.every hu)
  | position hus hu => exact child_of_read readAs (.position hus hu)
  | branch hus hu => exact child_of_read readAs (.branch hus hu)
  | negated hu => exact child_of_read readAs (.negated hu)
  | definition hu => exact defined _ hu

theorem branches_of_document {x : Json} {s : Schema} {ss : List Schema}
    (h : ofDocument x = .ok s) (branches : s.anyOf = some ss) :
    ∀ u ∈ ss, ∃ place y, read place y = .ok u :=
  fun _ hu => child_of_document h (.branch branches hu)

/-- What holds of every schema that is read holds of all parts of one. -/
theorem throughout_of_read {P : Schema → Prop} (each : ∀ here x s, read here x = .ok s → P s)
    (s : Schema) : ∀ {here x}, read here x = .ok s → s.Throughout P := by
  induction s using child_induction with
  | step s ih =>
    intro here x h
    refine throughout_iff.mpr ⟨each here x s h, fun u hu => ?_⟩
    obtain ⟨place, y, readAs⟩ := child_of_read h hu
    exact ih u hu readAs

end SchemaDrift.Schema
