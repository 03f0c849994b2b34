import SchemaDrift.Comparison.Task
import SchemaDrift.Proofs.ExactValue
import SchemaDrift.Proofs.Fields
import SchemaDrift.Proofs.Schema.Reads

/-!
# What a document states

The rules of a document are looked up in the document itself, so that numbers are as they are
written. A schema that is read from it has the same rules, with one exception: a bound is rounded
to the nearest double.

* `Json.rule?`, `Json.number?`, `Json.text?`, `Json.kindNames?`, `Json.Requires`, `Json.property?`
  and `Json.items?` look up the rules of a document.
* `Json.Unrounded` says that rounding changes no bound of a document, `Json.Subschema` where its
  bounds stand.
* `Schema.read_elsewhere`: a document is read to one schema, wherever it stands.
* `Schema.Renders` says that a schema has the rules of a document with its bounds rounded, which are
  the bounds as written where doubles hold these (`Schema.Renders.bound_exact`);
  `Schema.renders_of_read` and `Schema.renders_of_document` are the main statements.
-/

namespace SchemaDrift

open Schema

/-! ## Rules of documents -/

namespace Json

/-- The value that an object has under a keyword. The documents `true` and `false` have none. -/
def rule? (d : Json) (keyword : String) : Option Json :=
  match d with
  | .obj fields => fields.lookup keyword
  | _ => none

/-- The number under a keyword, as it is written. -/
def number? (d : Json) (keyword : String) : Option Number :=
  match d.rule? keyword with
  | some (.num n) => some n
  | _ => none

def text? (d : Json) (keyword : String) : Option String :=
  match d.rule? keyword with
  | some (.str s) => some s
  | _ => none

/-- The names under `type`; one name may stand there without a list. -/
def kindNames? (d : Json) : Option (List Json) :=
  match d.rule? "type" with
  | some (.arr xs) => some xs
  | some x => some [x]
  | none => none

def Requires (d : Json) (name : String) : Prop :=
  ∃ xs, d.rule? "required" = some (.arr xs) ∧ .str name ∈ xs

def property? (d : Json) (name : String) : Option Json :=
  match d.rule? "properties" with
  | some (.obj table) => table.lookup name
  | _ => none

def items? (d : Json) : Option (Items Json) :=
  match d.rule? "items" with
  | some (.arr xs) => some (.positions xs)
  | some x => some (.every x)
  | none => none

/-- A kind belongs to the effective type of the schema that a document is read to. -/
def MayBe (d : Json) (k : Kind) : Prop := ∃ s, Schema.read .root d = .ok s ∧ k ∈ s.typing.admitted

/-- The first document stands somewhere in the second one as the schema of properties or items, or
is that one. -/
inductive Subschema : Json → Json → Prop where
  | whole (d : Json) : Subschema d d
  | property {c d u : Json} {name : String} :
    d.property? name = some u → Subschema c u → Subschema c d
  | every {c d u : Json} : d.items? = some (.every u) → Subschema c u → Subschema c d
  | position {c d u : Json} {us : List Json} :
    d.items? = some (.positions us) → u ∈ us → Subschema c u → Subschema c d

/-- All bounds have the values of doubles. -/
def Unrounded (d : Json) : Prop :=
  ∀ c, Subschema c d → ∀ b : Bound, ∀ m, c.number? b.keyword = some m →
    ∃ x : Double, m.same (.double x) = true

namespace Unrounded

variable {d u : Json}

theorem of_parts (bound : ∀ b : Bound, ∀ m, d.number? b.keyword = some m →
      ∃ x : Double, m.same (.double x) = true)
    (property : ∀ name u, d.property? name = some u → u.Unrounded)
    (every : ∀ u, d.items? = some (.every u) → u.Unrounded)
    (position : ∀ us, d.items? = some (.positions us) → ∀ u ∈ us, u.Unrounded) : d.Unrounded := by
  rintro c (_ | ⟨hu, hc⟩ | ⟨hu, hc⟩ | ⟨hus, hu, hc⟩)
  · exact bound
  · exact property _ _ hu c hc
  · exact every _ hu c hc
  · exact position _ hus _ hu c hc

theorem bound (h : d.Unrounded) {b : Bound} {m : Number} (hm : d.number? b.keyword = some m) :
    m.same m.rounded = true :=
  Number.same_rounded_self_iff.mpr (h d (.whole d) b m hm)

theorem property (h : d.Unrounded) {name : String} (hu : d.property? name = some u) :
    u.Unrounded :=
  fun c hc => h c (.property hu hc)

theorem every (h : d.Unrounded) (hu : d.items? = some (.every u)) : u.Unrounded :=
  fun c hc => h c (.every hu hc)

theorem position (h : d.Unrounded) {us : List Json} (hus : d.items? = some (.positions us))
    (hu : u ∈ us) : u.Unrounded :=
  fun c hc => h c (.position hus hu hc)

end Unrounded

end Json

namespace Schema

/-! ## Documents read elsewhere -/

/-- The value can be read wherever it stands, and always to the schema. -/
def ReadTo (x : Json) (s : Schema) : Prop := ∀ place, read place x = .ok s

section

variable {here there : Pointer} {value : Option Json}

theorem propertiesOf_elsewhere {table : List (String × Schema)}
    (h : propertiesOf here value = .ok table)
    (again : ∀ f ∈ table, ∀ place x, read place x = .ok f.2 → ReadTo x f.2) :
    propertiesOf there value = .ok table := by
  unfold propertiesOf at h ⊢
  split at h
  · exact h
  · rw [readTable_eq_ok_iff] at h ⊢
    exact (forall₂_mem h.flip).flip.imp fun f g hfg =>
      ⟨hfg.2.1, again g hfg.1 _ _ hfg.2.2 _⟩
  · exact nomatch h

theorem readList_elsewhere {position : Nat} {xs : List Json} {ss : List Schema}
    (h : readList here position xs = .ok ss)
    (again : ∀ s ∈ ss, ∀ place x, read place x = .ok s → ReadTo x s) :
    readList there position xs = .ok ss :=
  readList_of_forall₂ there position <|
    (forall₂_mem (forall₂_of_readList h).flip).flip.imp fun x s ⟨hs, place, reads⟩ =>
      again s hs place x reads

theorem schemaOf_elsewhere {name : String} {s : Option Schema}
    (h : schemaOf here name value = .ok s)
    (again : ∀ u, s = some u → ∀ place x, read place x = .ok u → ReadTo x u) :
    schemaOf there name value = .ok s := by
  cases value with
  | none => exact h
  | some x =>
    obtain ⟨u, hu, rfl⟩ := map_eq_ok.mp h
    exact map_eq_ok.mpr ⟨u, again u rfl _ x hu _, rfl⟩

theorem itemsOf_elsewhere {rule : Option (Items Schema)} (h : itemsOf here value = .ok rule)
    (one : ∀ u, rule = some (.every u) → ∀ place x, read place x = .ok u → ReadTo x u)
    (each : ∀ us, rule = some (.positions us) → ∀ u ∈ us, ∀ place x, read place x = .ok u →
      ReadTo x u) : itemsOf there value = .ok rule := by
  unfold itemsOf at h ⊢
  split at h
  · exact h
  · obtain ⟨us, hus, rfl⟩ := map_eq_ok.mp h
    exact map_eq_ok.mpr ⟨us, readList_elsewhere hus (each us rfl), rfl⟩
  · obtain ⟨u, hu, rfl⟩ := map_eq_ok.mp h
    exact map_eq_ok.mpr ⟨u, one u rfl _ _ hu _, rfl⟩

theorem anyOfOf_elsewhere {branches : Option (List Schema)} (h : anyOfOf here value = .ok branches)
    (each : ∀ us, branches = some us → ∀ u ∈ us, ∀ place x, read place x = .ok u → ReadTo x u) :
    anyOfOf there value = .ok branches := by
  unfold anyOfOf at h ⊢
  split at h
  · exact h
  · obtain ⟨us, hus, rfl⟩ := map_eq_ok.mp h
    exact map_eq_ok.mpr ⟨us, readList_elsewhere hus (each us rfl), rfl⟩
  · exact nomatch h

end

/-- Where a document stands does not matter to the schema that it is read to. -/
theorem read_elsewhere {here : Pointer} {x : Json} {s : Schema} (h : read here x = .ok s) :
    ReadTo x s := by
  induction s using child_induction generalizing here x with
  | step s ih =>
    intro there
    cases x with
    | bool b => cases b <;> exact h
    | obj fields =>
      have made := read_obj_iff.mp h
      rw [readParts_eq] at made
      rw [read_obj_iff, readParts_eq]
      obtain ⟨names, required, named⟩ := made.required
      exact {
        kinds := keyword_elsewhere made.kinds rfl fun _ _ h => readType_elsewhere h _
        const := made.const
        number := readNumberRules_elsewhere made.number there fun _ _ => rfl
        text := readStringRules_elsewhere made.text there fun _ _ => rfl
        properties := propertiesOf_elsewhere made.properties fun f hf _ _ =>
          ih f.2 (.property hf)
        required := ⟨names,
          keyword_elsewhere required rfl fun _ _ h => readRequired_elsewhere h _, named⟩
        additional := schemaOf_elsewhere made.additional fun u hu _ _ => ih u (.additional hu)
        items := itemsOf_elsewhere made.items (fun u hu _ _ => ih u (.every hu))
          fun us hus u hu _ _ => ih u (.position hus hu)
        anyOf := anyOfOf_elsewhere made.anyOf fun us hus u hu _ _ => ih u (.branch hus hu)
        negated := schemaOf_elsewhere made.negated fun u hu _ _ => ih u (.negated hu)
        reference := keyword_elsewhere made.reference rfl fun _ _ h => readString_elsewhere h _
        identifier := keyword_elsewhere made.identifier rfl fun _ _ h => readString_elsewhere h _
        definitions := made.definitions }
    | _ => exact nomatch h

theorem ReadTo.unique {x : Json} {s t : Schema} (hs : ReadTo x s) (ht : ReadTo x t) : s = t :=
  Except.ok.inj ((hs .root).symm.trans (ht .root))

/-! ## Schemas with the rules of a document -/

/-- A schema has the rules of a document, those on further properties, branches, negation and
references apart. Its bounds are the rounded ones of the document. -/
structure Renders (d : Json) (s : Schema) : Prop where
  typing : ∀ k, d.MayBe k ↔ k ∈ s.typing.admitted
  kinds : d.kindNames? = s.kinds.map (List.map fun k => .str k.name)
  const : d.rule? "const" = s.const
  bound : ∀ b : Bound, Task.boundValue s.number b = (d.number? b.keyword).map Number.toDouble
  format : d.text? "format" = s.text.format
  pattern : d.text? "pattern" = s.text.pattern
  minLength : Option.Rel (fun m (n : Nat) => m.same (.int n) = true) (d.number? "minLength")
    s.text.minLength
  maxLength : Option.Rel (fun m (n : Nat) => m.same (.int n) = true) (d.number? "maxLength")
    s.text.maxLength
  required : ∀ name, d.Requires name ↔ name ∈ s.required
  properties : ∀ name, Option.Rel ReadTo (d.property? name) (s.properties.lookup name)
  items : Option.Rel (ItemsMatch ReadTo) d.items? s.items

/-- A bound of a schema has the value of the number in the document, if some double has it. -/
theorem Renders.bound_exact {d : Json} {s : Schema} (h : Renders d s) (exact : d.Unrounded)
    (b : Bound) : Option.Rel (fun m (x : Double) => m.same (.double x) = true)
      (d.number? b.keyword) (Task.boundValue s.number b) := by
  rw [h.bound]
  cases hm : d.number? b.keyword with
  | none => exact .none
  | some m => exact .some (exact.bound hm)

section

variable {fields : Keywords} {here : Pointer}

theorem bound_of_read {name : String} {x : Option Double}
    (h : keyword fields name (readBound name here) = .ok x) :
    x = ((Json.obj fields).number? name).map Number.toDouble := by
  rw [keyword_eq_ok_iff] at h
  unfold Json.number? Json.rule?
  dsimp only
  generalize fields.lookup name = value at h
  cases h with
  | none => rfl
  | @some y x read =>
    unfold readBound at read
    split at read
    · dsimp only at read
      split at read
      · rw [← Except.ok.inj read]
        rfl
      · exact nomatch read
    · split at read
      · rw [← Except.ok.inj read]
        rfl
      · exact nomatch read
    · exact nomatch read

theorem bounds_of_read {rules : NumberRules} (h : readNumberRules here fields = .ok rules)
    (b : Bound) :
    Task.boundValue rules b = ((Json.obj fields).number? b.keyword).map Number.toDouble := by
  simp only [readNumberRules, bind_eq_ok, pure_eq_ok] at h
  obtain ⟨minimum, hminimum, maximum, hmaximum, above, habove, below, hbelow, rfl⟩ := h
  cases b with
  | minimum => exact bound_of_read hminimum
  | maximum => exact bound_of_read hmaximum
  | exclusiveMinimum => exact bound_of_read habove
  | exclusiveMaximum => exact bound_of_read hbelow

theorem length_of_read {name : String} {n : Option Nat}
    (h : keyword fields name (readLength name here) = .ok n) :
    Option.Rel (fun m (n : Nat) => m.same (.int n) = true) ((Json.obj fields).number? name) n := by
  rw [keyword_eq_ok_iff] at h
  unfold Json.number? Json.rule?
  dsimp only
  generalize fields.lookup name = value at h
  cases h with
  | none => exact .none
  | @some y n read =>
    unfold readLength at read
    dsimp only at read
    split at read
    · next whole =>
      obtain rfl := Except.ok.inj read
      split at whole
      · obtain rfl := Option.some.inj whole
        exact .some (Number.same_self nofun)
      · exact .some (Number.same_of_integer whole)
      · exact nomatch whole
    · exact nomatch read

theorem text_of_read {name : String} {s : Option String}
    (h : keyword fields name (readString name here) = .ok s) :
    (Json.obj fields).text? name = s := by
  rw [keyword_eq_ok_iff] at h
  unfold Json.text? Json.rule?
  dsimp only
  generalize fields.lookup name = value at h
  cases h with
  | none => rfl
  | @some y s read =>
    unfold readString at read
    split at read
    · rw [Except.ok.inj read]
    · exact nomatch read

theorem kindNames_of_read {ks : Option (List Kind)}
    (h : keyword fields "type" (readType here) = .ok ks) :
    (Json.obj fields).kindNames? = ks.map (List.map fun k => .str k.name) := by
  rw [keyword_eq_ok_iff] at h
  unfold Json.kindNames? Json.rule?
  dsimp only
  generalize fields.lookup "type" = value at h
  cases h with
  | none => rfl
  | @some y ks read =>
    unfold readType at read
    split at read
    · exact congrArg some (readKinds_eq_ok_iff.mp read)
    · next single =>
      have named := congrArg some (readKinds_eq_ok_iff.mp read)
      cases y with
      | arr xs => exact absurd rfl (single xs)
      | _ => exact named

theorem requires_of_read {names : Option (List String)} {required : List String}
    (h : keyword fields "required" (readRequired here) = .ok names)
    (named : required = names.getD []) (name : String) :
    (Json.obj fields).Requires name ↔ name ∈ required := by
  subst named
  rw [keyword_eq_ok_iff] at h
  unfold Json.Requires Json.rule?
  dsimp only
  generalize fields.lookup "required" = value at h
  cases h with
  | none => exact iff_of_false (fun ⟨_, absent, _⟩ => nomatch absent) List.not_mem_nil
  | @some y names read =>
    unfold readRequired at read
    split at read
    · next xs =>
      split at read
      · next listed strings =>
        rw [← Except.ok.inj read, strings?_eq_some_iff.mp strings, Option.getD_some,
          Names.mem_ofList]
        simp
      · exact nomatch read
    · exact nomatch read

theorem property_of_read {table : List (String × Schema)}
    (h : propertiesOf here (fields.lookup "properties") = .ok table) (name : String) :
    Option.Rel ReadTo ((Json.obj fields).property? name) (table.lookup name) := by
  unfold Json.property? Json.rule?
  dsimp only
  generalize fields.lookup "properties" = value at h
  unfold propertiesOf at h
  split at h
  · rw [← Except.ok.inj h]
    exact .none
  · have aligned : Fields.Aligned (fun _ x u => ReadTo x u) _ table :=
      (readTable_eq_ok_iff.mp h).imp fun _ _ ⟨named, reads⟩ => ⟨named, read_elsewhere reads⟩
    exact aligned.lookup name
  · exact nomatch h

theorem items_of_read {rule : Option (Items Schema)}
    (h : itemsOf here (fields.lookup "items") = .ok rule) :
    Option.Rel (ItemsMatch ReadTo) (Json.obj fields).items? rule := by
  unfold Json.items? Json.rule?
  dsimp only
  generalize fields.lookup "items" = value at h
  cases value with
  | none =>
    rw [← Except.ok.inj h]
    exact .none
  | some x =>
    unfold itemsOf at h
    cases x with
    | arr xs =>
      obtain ⟨us, hus, rfl⟩ := map_eq_ok.mp h
      exact .some (.positions ((forall₂_of_readList hus).imp fun _ _ ⟨_, reads⟩ =>
        read_elsewhere reads))
    | _ =>
      obtain ⟨u, hu, rfl⟩ := map_eq_ok.mp h
      exact .some (.every (read_elsewhere hu))

end

/-- A document that is read is rendered by its schema. -/
theorem renders_of_read {here : Pointer} {d : Json} {s : Schema} (h : read here d = .ok s) :
    Renders d s := by
  have typing (k : Kind) : d.MayBe k ↔ k ∈ s.typing.admitted := by
    constructor
    · rintro ⟨t, ht, hk⟩
      rwa [(read_elsewhere h).unique (read_elsewhere ht)]
    · exact fun hk => ⟨s, read_elsewhere h .root, hk⟩
  cases d with
  | bool b =>
    have requires (name : String) : (Json.bool b).Requires name ↔ name ∈ [] := by
      refine iff_of_false ?_ List.not_mem_nil
      rintro ⟨xs, absent, -⟩
      cases absent
    cases b with
    | true =>
      obtain rfl := Except.ok.inj h
      exact ⟨typing, rfl, rfl, fun b => by cases b <;> rfl, rfl, rfl, .none, .none, requires,
        fun _ => .none, .none⟩
    | false =>
      obtain rfl := Except.ok.inj h
      exact ⟨typing, rfl, rfl, fun b => by cases b <;> rfl, rfl, rfl, .none, .none, requires,
        fun _ => .none, .none⟩
  | obj fields =>
    have made := read_obj_iff.mp h
    rw [readParts_eq] at made
    obtain ⟨names, required, named⟩ := made.required
    have text := made.text
    simp only [readStringRules, bind_eq_ok, pure_eq_ok] at text
    obtain ⟨format, hformat, pattern, hpattern, shortest, hshortest, longest, hlongest, text⟩ :=
      text
    exact {
      typing
      kinds := kindNames_of_read made.kinds
      const := made.const
      bound := bounds_of_read made.number
      format := by rw [← text]; exact text_of_read hformat
      pattern := by rw [← text]; exact text_of_read hpattern
      minLength := by rw [← text]; exact length_of_read hshortest
      maxLength := by rw [← text]; exact length_of_read hlongest
      required := requires_of_read required named
      properties := property_of_read made.properties
      items := items_of_read made.items }
  | _ => simp [read] at h

theorem typing_definitions (s : Schema) (definitions : List (String × Schema)) :
    { s with definitions }.typing = s.typing := by
  cases s
  unfold typing
  rfl

theorem renders_of_document {d : Json} {s : Schema} (h : ofDocument d = .ok s) : Renders d s := by
  obtain ⟨root, definitions, readAs, rfl, -⟩ := root_of_document h
  have rendered := renders_of_read readAs
  exact {
    typing := fun k => by rw [typing_definitions]; exact rendered.typing k
    kinds := rendered.kinds
    const := rendered.const
    bound := rendered.bound
    format := rendered.format
    pattern := rendered.pattern
    minLength := rendered.minLength
    maxLength := rendered.maxLength
    required := rendered.required
    properties := rendered.properties
    items := rendered.items }

end Schema

end SchemaDrift
