import SchemaDrift.Proofs.Schema.Reads
import SchemaDrift.Schema.References

/-!
# What a reference leads to

A definition can be referred to in several spellings, and since names and identifiers are free, two
definitions may share one. A spelling then leads to the definition whose name stands last.

* `Schema.definedNames` are the names that a document defines, in order, and `Schema.Defines` says
  which schema a name stands for.
* `Schema.definitions_of_document`: these are the definitions of the root that is read.
* `References.Spells` says which strings refer to a definition.
* `References.find?_eq_some_iff` says what a look-up finds among the definitions of any root, and
  `References.find?_exact` what it finds in terms of the document.
-/

namespace SchemaDrift

/-! ## The definitions of a document -/

namespace Schema

def tableOf (document : Json) (keyword : String) : List (String × Json) :=
  (document.fieldsOf.lookup keyword).elim [] Json.fieldsOf

/-- The names that a document defines: those under `$defs`, then those that are under `definitions`
only. -/
def definedNames (document : Json) : List String :=
  Fields.keys (tableOf document "$defs") ++
    Names.without (Fields.keys (tableOf document "definitions"))
      (Fields.keys (tableOf document "$defs"))

/-- A name of a document stands for the schema that its entry is read to. An entry under
`definitions` hides one under `$defs`. -/
inductive Defines (document : Json) (name : String) (s : Schema) : Prop where
  | newer {x : Json} : (tableOf document "definitions").lookup name = some x →
    read ((Pointer.root.field "definitions").field name) x = .ok s → Defines document name s
  | older {x : Json} : (tableOf document "definitions").lookup name = none →
    (tableOf document "$defs").lookup name = some x →
    read ((Pointer.root.field "$defs").field name) x = .ok s → Defines document name s

theorem nodup_tableOf {document : Json} (distinct : document.Throughout Json.DistinctKeys)
    (keyword : String) : (Fields.keys (tableOf document keyword)).Nodup := by
  unfold tableOf
  rcases found : document.fieldsOf.lookup keyword with _ | x
  · exact .nil
  · cases x with
    | obj table => exact (distinct.fieldOf found).here
    | _ => exact .nil

/-- A table of definitions that was read has the names of its entries. -/
theorem aligned_of_readDefinitions {fields : Keywords} {keyword : String}
    {table : List (String × Schema)} (h : readDefinitions fields keyword = .ok table) :
    Fields.Aligned (fun name x s => read ((Pointer.root.field keyword).field name) x = .ok s)
      (tableOf (.obj fields) keyword) table := by
  unfold readDefinitions at h
  show Fields.Aligned _ ((fields.lookup keyword).elim [] Json.fieldsOf) table
  split at h
  · next absent =>
    rw [absent, ← Except.ok.inj h]
    exact .nil
  · next null =>
    rw [null, ← Except.ok.inj h]
    exact .nil
  · next entries found =>
    rw [found]
    exact readTable_eq_ok_iff.mp h
  · exact nomatch h

theorem or_eq_some_iff_defines {document : Json} {name : String} {older newer : Option Schema}
    (holder : Option.Rel (fun x s => read ((Pointer.root.field "$defs").field name) x = .ok s)
      ((tableOf document "$defs").lookup name) older)
    (hnewer : Option.Rel (fun x s => read ((Pointer.root.field "definitions").field name) x = .ok s)
      ((tableOf document "definitions").lookup name) newer) (s : Schema) :
    newer.or older = some s ↔ Defines document name s := by
  constructor
  · intro h
    rcases rel_cases hnewer with ⟨absent, rfl⟩ | ⟨x, t, found, rfl, built⟩
    · rcases rel_cases holder with ⟨-, rfl⟩ | ⟨x, t, found, rfl, built⟩
      · exact nomatch h
      · exact .older absent found (Option.some.inj h ▸ built)
    · exact .newer found (Option.some.inj h ▸ built)
  · rintro (⟨found, again⟩ | ⟨absent, found, again⟩)
    · rw [found] at hnewer
      cases hnewer with
      | some built => exact congrArg some (Except.ok.inj (built.symm.trans again))
    · rw [absent] at hnewer
      rw [found] at holder
      cases hnewer
      cases holder with
      | some built => exact congrArg some (Except.ok.inj (built.symm.trans again))

/-- The definitions of a root that was read have the names of the document in their order, and each
name leads to the schema it stands for. -/
theorem definitions_of_document {document : Json} {root : Schema}
    (distinct : document.Throughout Json.DistinctKeys) (built : ofDocument document = .ok root) :
    Fields.keys root.definitions = definedNames document ∧
      (Fields.keys root.definitions).Nodup ∧
      ∀ name s, root.definitions.lookup name = some s ↔ Defines document name s := by
  obtain ⟨plain, hplain, built⟩ := bind_eq_ok.mp built
  cases document with
  | bool b =>
    rw [← pure_eq_ok.mp built, read_definitions hplain]
    refine ⟨rfl, .nil, fun name s => iff_of_false nofun ?_⟩
    rintro (⟨found, -⟩ | ⟨-, found, -⟩)
    · exact nomatch found
    · exact nomatch found
  | obj fields =>
    simp only [bind_eq_ok, pure_eq_ok] at built
    obtain ⟨older, holder, newer, hnewer, rfl⟩ := built
    have older' := aligned_of_readDefinitions holder
    have newer' := aligned_of_readDefinitions hnewer
    have distinctOlder : (Fields.keys older).Nodup := older'.keys_eq ▸ nodup_tableOf distinct _
    have distinctNewer : (Fields.keys newer).Nodup := newer'.keys_eq ▸ nodup_tableOf distinct _
    refine ⟨?_, Fields.nodup_putAll distinctOlder, fun name s => ?_⟩
    · show Fields.keys (Fields.putAll older newer) = _
      rw [Fields.keys_putAll distinctNewer, ← older'.keys_eq, ← newer'.keys_eq]
      rfl
    · show (Fields.putAll older newer).lookup name = some s ↔ _
      rw [Fields.lookup_putAll distinctNewer]
      exact or_eq_some_iff_defines (older'.lookup name) (newer'.lookup name) s
  | _ => exact nomatch hplain

theorem mem_definitions_iff {document : Json} {root : Schema}
    (distinct : document.Throughout Json.DistinctKeys) (built : ofDocument document = .ok root)
    (name : String) (s : Schema) : (name, s) ∈ root.definitions ↔ Defines document name s := by
  obtain ⟨-, single, defined⟩ := definitions_of_document distinct built
  rw [← defined]
  exact ⟨Fields.lookup_of_mem single, Fields.mem_of_lookup⟩

end Schema

/-! ## Spellings -/

namespace References

/-- A string refers to a definition: it is the name behind `#/definitions/` or `#/$defs/`, alone or
behind the identifier of the root, or it is the identifier of the definition. -/
inductive Spells (root : Option String) (name : String) (definition : Schema) : String → Prop where
  | definitions : Spells root name definition ("#/definitions/" ++ name)
  | defs : Spells root name definition ("#/$defs/" ++ name)
  | rootDefinitions {i : String} : root = some i →
    Spells root name definition (i ++ "#/definitions/" ++ name)
  | rootDefs {i : String} : root = some i → Spells root name definition (i ++ "#/$defs/" ++ name)
  | own {i : String} : definition.identifier = some i → Spells root name definition i

theorem mem_spellings_iff {root : Option String} {name : String} {definition : Schema}
    {r : String} : r ∈ spellings root name definition ↔ Spells root name definition r := by
  unfold spellings
  constructor
  · intro h
    rcases List.mem_append.mp h with h | h
    · rcases List.mem_append.mp h with h | h
      · exact .own (Option.mem_toList.mp h)
      · cases root with
        | none => exact nomatch h
        | some i =>
          rcases List.mem_pair.mp h with rfl | rfl
          · exact .rootDefinitions rfl
          · exact .rootDefs rfl
    · rcases List.mem_pair.mp h with rfl | rfl
      · exact .definitions
      · exact .defs
  · intro h
    cases h with
    | definitions => simp
    | defs => simp
    | rootDefinitions hi => simp [hi]
    | rootDefs hi => simp [hi]
    | own hi => simp [hi]

/-- Without identifiers no string refers to two names. -/
theorem Spells.name_eq {name other : String} {s t : Schema} {r : String}
    (hs : s.identifier = none) (ht : t.identifier = none) (h : Spells none name s r)
    (h' : Spells none other t r) : name = other := by
  have forms {name : String} {s : Schema} (hs : s.identifier = none) (h : Spells none name s r) :
      r = "#/definitions/" ++ name ∨ r = "#/$defs/" ++ name := by
    cases h with
    | definitions => exact .inl rfl
    | defs => exact .inr rfl
    | rootDefinitions hi => exact nomatch hi
    | rootDefs hi => exact nomatch hi
    | own hi => exact nomatch hs.symm.trans hi
  rcases forms hs h with rfl | rfl <;> rcases forms ht h' with same | same
  · exact (String.append_right_inj _).mp same
  · simp [String.ext_iff] at same
  · simp [String.ext_iff] at same
  · exact (String.append_right_inj _).mp same

/-! ## Look-ups -/

/-- A table that has one value under several names leads from each of them to that value. -/
theorem lookup_map_const {α : Type} (names : List String) (value : α) (r : String) :
    (names.map fun name => (name, value)).lookup r = if r ∈ names then some value else none := by
  induction names with
  | nil => rfl
  | cons name rest ih =>
    rw [List.map_cons, Fields.lookup_cons, ih]
    by_cases same : r = name
    · simp [same]
    · simp [same]

/-- The definition that was entered last is found first. -/
theorem lookup_entered_concat (root : Option String) (definitions : List (String × Schema))
    (name : String) (s : Schema) (r : String) :
    (entered root (definitions ++ [(name, s)])).reverse.lookup r =
      if r ∈ spellings root name s then some s
      else (entered root definitions).reverse.lookup r := by
  have last : (entered root (definitions ++ [(name, s)])).reverse =
      ((spellings root name s).reverse.map fun r => (r, s)) ++
        (entered root definitions).reverse := by
    simp [entered]
  rw [last, List.lookup_append, lookup_map_const]
  split <;> simp_all

/-- A look-up goes through the definitions from the last to the first one. -/
theorem find?_eq (root : Schema) (r : String) :
    (ofRoot root).find? r =
      (root.definitions.reverse.find? fun d =>
        (spellings root.identifier d.1 d.2).contains r).map (·.2) := by
  show (entered root.identifier root.definitions).reverse.lookup r = _
  induction root.definitions using List.reverseRecOn with
  | nil => rfl
  | append_singleton definitions d ih =>
    rw [lookup_entered_concat, ih, List.reverse_concat, List.find?_cons]
    by_cases spelled : r ∈ spellings root.identifier d.1 d.2
    · simp [spelled]
    · simp [spelled]

/-- A spelling leads to a definition exactly if it refers to it and to none that stands later. -/
theorem find?_eq_some_iff {root : Schema} {r : String} {s : Schema} :
    (ofRoot root).find? r = some s ↔
      ∃ name, Spells root.identifier name s r ∧
        ∃ before after, root.definitions = before ++ (name, s) :: after ∧
          ∀ later t, (later, t) ∈ after → ¬Spells root.identifier later t r := by
  simp only [find?_eq, Option.map_eq_some_iff, List.find?_eq_some_iff_append,
    List.contains_iff_mem, mem_spellings_iff, Bool.not_eq_true', Bool.eq_false_iff, ne_eq]
  constructor
  · rintro ⟨⟨name, s⟩, ⟨spelled, after, before, split, last⟩, rfl⟩
    refine ⟨name, spelled, before.reverse, after.reverse, ?_, fun later t hmem => ?_⟩
    · rw [List.reverse_eq_iff.mp split]
      simp
    · exact last (later, t) (List.mem_reverse.mp hmem)
  · rintro ⟨name, spelled, before, after, split, last⟩
    refine ⟨(name, s), ⟨spelled, after.reverse, before.reverse, ?_, fun d hmem => ?_⟩, rfl⟩
    · rw [split]
      simp
    · exact last d.1 d.2 (List.mem_reverse.mp hmem)

/-- A spelling leads nowhere exactly if it refers to no definition. -/
theorem find?_eq_none_iff {root : Schema} {r : String} :
    (ofRoot root).find? r = none ↔
      ∀ name s, (name, s) ∈ root.definitions → ¬Spells root.identifier name s r := by
  simp only [find?_eq, Option.map_eq_none_iff, List.find?_eq_none, List.mem_reverse,
    List.contains_iff_mem, mem_spellings_iff, Prod.forall]

/-! ## Look-ups in a document -/

section

variable {document : Json} {root : Schema} (distinct : document.Throughout Json.DistinctKeys)
  (built : Schema.ofDocument document = .ok root)

include distinct built

/-- Every name of a document stands for one schema. A string leads to the schema of the last name
that it refers to, and nowhere if it refers to none. So all spellings of all names lead to their own
definitions if no string refers to two names. -/
theorem find?_exact :
    (∀ name ∈ Schema.definedNames document, ∃! s, Schema.Defines document name s) ∧
    (∀ r s, (ofRoot root).find? r = some s ↔
      ∃ name, Spells root.identifier name s r ∧
        ∃ before after, Schema.definedNames document = before ++ name :: after ∧
          Schema.Defines document name s ∧
          ∀ later ∈ after, ∀ t, Schema.Defines document later t →
            ¬Spells root.identifier later t r) ∧
    (∀ r, (ofRoot root).find? r = none ↔
      ∀ name s, Schema.Defines document name s → ¬Spells root.identifier name s r) ∧
    ((∀ r name other s t, Schema.Defines document name s → Schema.Defines document other t →
        Spells root.identifier name s r → Spells root.identifier other t r → name = other) →
      ∀ name s r, Schema.Defines document name s → Spells root.identifier name s r →
        (ofRoot root).find? r = some s) := by
  obtain ⟨names, single, defined⟩ := Schema.definitions_of_document distinct built
  have member := Schema.mem_definitions_iff distinct built
  have unique {name : String} {s t : Schema} (hs : Schema.Defines document name s)
      (ht : Schema.Defines document name t) : s = t :=
    Option.some.inj (((defined name s).mpr hs).symm.trans ((defined name t).mpr ht))
  refine ⟨fun name hname => ?_, fun r s => ?_, fun r => ?_, fun apart name s r hs spelled => ?_⟩
  · rw [← names, ← Fields.lookup_isSome_iff] at hname
    obtain ⟨s, hs⟩ := Option.isSome_iff_exists.mp hname
    exact ⟨s, (defined name s).mp hs, fun t ht => unique ht ((defined name s).mp hs)⟩
  · rw [find?_eq_some_iff]
    refine exists_congr fun name => and_congr_right' ?_
    rw [Fields.split_iff single (fun later t => ¬Spells root.identifier later t r), names]
    simp only [defined]
  · rw [find?_eq_none_iff]
    simp only [member]
  · rcases found : (ofRoot root).find? r with _ | t
    · exact absurd spelled (find?_eq_none_iff.mp found name s ((member name s).mpr hs))
    · obtain ⟨other, spelledOther, before, after, split, -⟩ := find?_eq_some_iff.mp found
      have ht : Schema.Defines document other t := by
        rw [← member, split]
        exact List.mem_append_right before List.mem_cons_self
      obtain rfl := apart r name other s t hs ht spelled spelledOther
      rw [unique hs ht]

end

/-- `A` stands in both tables, and the identifier of `B` is a spelling of `A`. -/
def catalogue : Json :=
  .obj [("$id", .str "urn:c"),
    ("$defs", .obj [("A", .obj [("type", .str "null")]),
      ("B", .obj [("$id", .str "#/definitions/A"), ("type", .str "string")])]),
    ("definitions", .obj [("C", .obj []), ("A", .obj [("type", .str "boolean")])])]

/-- Of the definitions of `catalogue`, none has an identifier here. -/
def listing : Json :=
  .obj [("$defs", .obj [("A", .obj [("type", .str "null")])]),
    ("definitions", .obj [("B", .obj [("$ref", .str "#/$defs/A")]), ("A", .bool false)])]

/-- In `catalogue` the spelling that `A` and `B` share leads to `B`, the others of `A` to the
definition of `A` that hides the older one. In `listing` there are no such spellings. -/
theorem find?_exact_catalogue :
    (catalogue.Throughout Json.DistinctKeys ∧ ∃ root, Schema.ofDocument catalogue = .ok root ∧
      Schema.definedNames catalogue = ["A", "B", "C"] ∧
      (∃ s, (ofRoot root).find? "#/definitions/A" = some s ∧
        Schema.Defines catalogue "B" s) ∧
      (∃ s, (ofRoot root).find? "urn:c#/$defs/A" = some s ∧ s.kinds = some [.boolean]) ∧
      (ofRoot root).find? "#/definitions/D" = none) ∧
    (listing.Throughout Json.DistinctKeys ∧ ∃ root, Schema.ofDocument listing = .ok root ∧
      ∀ name s r, Schema.Defines listing name s → Spells root.identifier name s r →
        (ofRoot root).find? r = some s) := by
  have distinct : catalogue.Throughout Json.DistinctKeys := by
    simp [catalogue, Json.DistinctKeys, Fields.keys]
  have distinct' : listing.Throughout Json.DistinctKeys := by
    simp [listing, Json.DistinctKeys, Fields.keys]
  obtain ⟨root, built, identifier, shared, older, unknown⟩ :
      ∃ root, Schema.ofDocument catalogue = .ok root ∧ root.identifier = some "urn:c" ∧
        (∀ d ∈ root.definitions, d.1 ∈ ["C"] →
          "#/definitions/A" ∉ spellings root.identifier d.1 d.2) ∧
        (∀ d ∈ root.definitions, d.1 ∈ ["B", "C"] →
          "urn:c#/$defs/A" ∉ spellings root.identifier d.1 d.2) ∧
        ∀ d ∈ root.definitions, "#/definitions/D" ∉ spellings root.identifier d.1 d.2 :=
    ⟨_, rfl, rfl, by decide, by decide, by decide⟩
  obtain ⟨root', built', identifier', plain⟩ :
      ∃ root, Schema.ofDocument listing = .ok root ∧ root.identifier = none ∧
        ∀ d ∈ root.definitions, d.2.identifier = none :=
    ⟨_, rfl, rfl, by decide⟩
  have member {name : String} {s : Schema} := (Schema.mem_definitions_iff distinct built name s).mpr
  have member' {name : String} {s : Schema} :=
    (Schema.mem_definitions_iff distinct' built' name s).mpr
  obtain ⟨-, found, none, -⟩ := find?_exact distinct built
  obtain ⟨-, -, -, apart⟩ := find?_exact distinct' built'
  refine ⟨⟨distinct, root, built, rfl, ⟨_, (found _ _).mpr ⟨"B", .own rfl, ["A"], ["C"], rfl,
    .older rfl rfl rfl, fun later hlater t ht spelled => ?_⟩, .older rfl rfl rfl⟩,
    ⟨_, (found _ _).mpr ⟨"A", .rootDefs identifier, [], ["B", "C"], rfl, .newer rfl rfl,
      fun later hlater t ht spelled => ?_⟩, rfl⟩, (none _).mpr fun name s hs spelled => ?_⟩,
    distinct', root', built', apart fun r name other s t hs ht spelled spelled' => ?_⟩
  · exact shared _ (member ht) hlater (mem_spellings_iff.mpr spelled)
  · exact older _ (member ht) hlater (mem_spellings_iff.mpr spelled)
  · exact unknown _ (member hs) (mem_spellings_iff.mpr spelled)
  · rw [identifier'] at spelled spelled'
    exact spelled.name_eq (plain _ (member' hs)) (plain _ (member' ht)) spelled'

end References

end SchemaDrift
