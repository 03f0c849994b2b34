import SchemaDrift.Proofs.Json.Equality
import SchemaDrift.Proofs.Rounding
import SchemaDrift.Proofs.Schema.Reads

/-!
# The grammar of schema documents

What a document has to look like is said here by the shapes of the values under its keywords,
without the readers of those keywords and without the order in which they run.

* `Schema.keywordShapes` lists the keywords with a shape. A value under any other keyword may be
  anything; among these is `const`.
* `Json.IsSchema` and `Json.IsDocument` are the grammar. The tables of definitions belong to the
  root: inside a schema their keywords are not known.
* `Schema.succeeds_readType_iff` and its companions: a reader succeeds on the values of its shape.
* `Schema.ofDocument_succeeds_iff`: a value is read as a document just if it is one.
-/

namespace SchemaDrift

/-! ## Shapes -/

/-- A number that has a finite double near it. -/
def Number.InRange : Number → Prop
  | .int n => n.natAbs < 2 ^ 1024 - 2 ^ 970
  | .double x => x.isFinite = true

namespace Schema

/-- What the value of a keyword has to look like. -/
inductive Shape where
  | kinds
  | bound
  | length
  | text
  | names
  | schema
  | table
  | list
  | items
  deriving DecidableEq, Repr

/-- The keywords with a shape, in the order in which a schema is put together. -/
def keywordShapes : List (String × Shape) :=
  [("type", .kinds), ("minimum", .bound), ("maximum", .bound), ("exclusiveMinimum", .bound),
    ("exclusiveMaximum", .bound), ("format", .text), ("pattern", .text), ("minLength", .length),
    ("maxLength", .length), ("properties", .table), ("required", .names),
    ("additionalProperties", .schema), ("items", .items), ("anyOf", .list), ("not", .schema),
    ("$ref", .text), ("$id", .text)]

def definitionKeywords : List String := ["$defs", "definitions"]

/-- A value has a shape, if the values in it that stand for schemas are admitted. -/
inductive Shape.Holds (admitted : Json → Prop) : Shape → Json → Prop where
  | kind (k : Kind) : Holds admitted .kinds (.str k.name)
  | kinds (ks : List Kind) : Holds admitted .kinds (.arr (ks.map fun k => .str k.name))
  | bound {n : Number} : n.InRange → Holds admitted .bound (.num n)
  | length (n : Nat) : Holds admitted .length (.num (.int n))
  | wholeLength {x : Double} {n : Nat} :
    x.integer? = some (n : Int) → Holds admitted .length (.num (.double x))
  | text (s : String) : Holds admitted .text (.str s)
  | names (ss : List String) : Holds admitted .names (.arr (ss.map .str))
  | schema {x : Json} : admitted x → Holds admitted .schema x
  | table {fields : Keywords} : (∀ f ∈ fields, admitted f.2) → Holds admitted .table (.obj fields)
  | list {xs : List Json} : (∀ x ∈ xs, admitted x) → Holds admitted .list (.arr xs)
  | every {x : Json} : admitted x → Holds admitted .items x
  | positions {xs : List Json} : (∀ x ∈ xs, admitted x) → Holds admitted .items (.arr xs)

end Schema

open Schema

namespace Json

/-- A value is a schema: a boolean, or an object whose keywords have values of their shapes. -/
inductive IsSchema : Json → Prop where
  | bool (b : Bool) : IsSchema (.bool b)
  | obj {fields : Keywords} :
    (∀ k ∈ keywordShapes, ∀ x, fields.lookup k.1 = some x → Shape.Holds IsSchema k.2 x) →
      IsSchema (.obj fields)

/-- A value is a document: a schema whose tables of definitions hold schemas. -/
inductive IsDocument : Json → Prop where
  | bool (b : Bool) : IsDocument (.bool b)
  | obj {fields : Keywords} : (Json.obj fields).IsSchema →
    (∀ name ∈ definitionKeywords, ∀ x, fields.lookup name = some x →
      x = .null ∨ Shape.Holds IsSchema .table x) → IsDocument (.obj fields)

theorem isSchema_obj_iff {fields : Keywords} :
    (Json.obj fields).IsSchema ↔
      ∀ k ∈ keywordShapes, ∀ x, fields.lookup k.1 = some x → Shape.Holds IsSchema k.2 x := by
  constructor
  · intro h
    cases h with
    | obj shaped => exact shaped
  · exact .obj

end Json

namespace Schema

/-! ## Success -/

def Succeeds {α : Type} (r : Except Fault α) : Prop := ∃ x, r = .ok x

section

variable {α β : Type}

theorem succeeds_ok (x : α) : Succeeds (.ok x) := ⟨x, rfl⟩

theorem not_succeeds_error (e : Fault) : ¬ Succeeds (.error e : Except Fault α) :=
  fun ⟨_, h⟩ => nomatch h

/-- Whether a step succeeds does not depend on what was read before it. -/
theorem succeeds_bind_iff {r : Except Fault α} {f : α → Except Fault β} {P Q : Prop}
    (first : Succeeds r ↔ P) (next : ∀ x, Succeeds (f x) ↔ Q) : Succeeds (r >>= f) ↔ P ∧ Q := by
  rw [← first]
  cases r with
  | error e => exact iff_of_false (not_succeeds_error e) fun h => not_succeeds_error e h.1
  | ok x => exact (next x).trans (and_iff_right (succeeds_ok x)).symm

theorem succeeds_map_iff {r : Except Fault α} {f : α → β} : Succeeds (f <$> r) ↔ Succeeds r := by
  cases r with
  | error e => exact iff_of_false (not_succeeds_error e) (not_succeeds_error e)
  | ok x => exact iff_of_true (succeeds_ok (f x)) (succeeds_ok x)

theorem succeeds_keyword_iff {fields : Keywords} {name : String} {read : Json → Except Fault α}
    {P : Json → Prop} (h : ∀ x, Succeeds (read x) ↔ P x) :
    Succeeds (keyword fields name read) ↔ ∀ x, fields.lookup name = some x → P x := by
  rw [keyword_eq]
  rcases fields.lookup name with _ | x
  · exact iff_of_true (succeeds_ok none) fun _ found => nomatch found
  · simp only [Option.some.injEq, forall_eq']
    exact succeeds_map_iff.trans (h x)

end

/-! ## Keywords without further schemas -/

section

variable {admitted : Json → Prop} {name : String} {here : Pointer} {x : Json}

theorem succeeds_readType_iff :
    Succeeds (readType here x) ↔ Shape.Holds admitted .kinds x := by
  constructor
  · rintro ⟨ks, h⟩
    unfold readType at h
    split at h
    · rw [readKinds_eq_ok_iff.mp h]
      exact .kinds ks
    · obtain ⟨k, -, rfl⟩ := List.map_eq_singleton_iff.mp (readKinds_eq_ok_iff.mp h).symm
      exact .kind k
  · intro h
    cases h with
    | kind k => exact ⟨[k], readKinds_eq_ok_iff.mpr rfl⟩
    | kinds ks => exact ⟨ks, readKinds_eq_ok_iff.mpr rfl⟩

theorem succeeds_readBound_iff :
    Succeeds (readBound name here x) ↔ Shape.Holds admitted .bound x := by
  have shaped {n : Number} : Shape.Holds admitted .bound (.num n) ↔ n.InRange :=
    ⟨fun h => by cases h; assumption, .bound⟩
  cases x with
  | num n =>
    rw [shaped]
    unfold readBound
    cases n with
    | int n =>
      rw [Number.InRange, ← Double.isFinite_ofInt]
      dsimp only
      split
      · next finite => exact iff_of_true (succeeds_ok _) finite
      · next large => exact iff_of_false (not_succeeds_error _) large
    | double x =>
      dsimp only
      split
      · next finite => exact iff_of_true (succeeds_ok _) finite
      · next large => exact iff_of_false (not_succeeds_error _) large
  | _ => exact iff_of_false (not_succeeds_error _) fun h => nomatch h

theorem succeeds_readLength_iff :
    Succeeds (readLength name here x) ↔ Shape.Holds admitted .length x := by
  constructor
  · rintro ⟨n, h⟩
    unfold readLength at h
    dsimp only at h
    split at h
    · next m whole =>
      split at whole
      · rw [Option.some.inj whole]
        exact .length m
      · exact .wholeLength whole
      · exact nomatch whole
    · exact nomatch h
  · intro h
    cases h with
    | length n => exact succeeds_ok n
    | wholeLength whole =>
      unfold readLength
      dsimp only
      rw [whole]
      exact succeeds_ok _

theorem succeeds_readString_iff :
    Succeeds (readString name here x) ↔ Shape.Holds admitted .text x := by
  cases x with
  | str s => exact iff_of_true (succeeds_ok s) (.text s)
  | _ => exact iff_of_false (not_succeeds_error _) fun h => nomatch h

theorem succeeds_readRequired_iff :
    Succeeds (readRequired here x) ↔ Shape.Holds admitted .names x := by
  cases x with
  | arr xs =>
    have shaped : Shape.Holds admitted .names (.arr xs) ↔ ∃ ss : List String, xs = ss.map .str :=
      ⟨fun h => by cases h with | names ss => exact ⟨ss, rfl⟩, fun ⟨ss, h⟩ => h ▸ .names ss⟩
    rw [shaped]
    simp only [← strings?_eq_some_iff]
    unfold readRequired
    dsimp only
    rcases strings? xs with _ | ss
    · exact iff_of_false (not_succeeds_error _) fun ⟨_, h⟩ => nomatch h
    · exact iff_of_true (succeeds_ok _) ⟨ss, rfl⟩
  | _ => exact iff_of_false (not_succeeds_error _) fun h => nomatch h

end

/-! ## Keywords that hold schemas -/

/-- A value is read as a schema, wherever it stands, just if it is one. -/
def Judged (x : Json) : Prop := ∀ here, Succeeds (read here x) ↔ x.IsSchema

section

variable {here : Pointer}

theorem succeeds_readTable_iff {table : Keywords} (known : ∀ f ∈ table, Judged f.2) :
    Succeeds (readTable here table) ↔ ∀ f ∈ table, f.2.IsSchema := by
  induction table with
  | nil => exact iff_of_true (succeeds_ok []) fun _ hf => nomatch hf
  | cons f rest ih =>
    have more := ih fun g hg => known g (List.mem_cons_of_mem _ hg)
    rw [List.forall_mem_cons, readTable]
    exact succeeds_bind_iff (known f List.mem_cons_self _) fun _ =>
      succeeds_map_iff.trans more

theorem succeeds_readList_iff {position : Nat} {xs : List Json} (known : ∀ x ∈ xs, Judged x) :
    Succeeds (readList here position xs) ↔ ∀ x ∈ xs, x.IsSchema := by
  induction xs generalizing position with
  | nil => exact iff_of_true (succeeds_ok []) fun _ hx => nomatch hx
  | cons x xs ih =>
    have more := @ih (position + 1) fun y hy => known y (List.mem_cons_of_mem _ hy)
    rw [List.forall_mem_cons, readList]
    exact succeeds_bind_iff (known x List.mem_cons_self _) fun _ =>
      succeeds_map_iff.trans more

/-! ### The values of such keywords -/

/-- The value of a keyword, if it is present, has a shape. -/
def Fits (v : Option Json) (shape : Shape) : Prop :=
  ∀ x, v = some x → Shape.Holds Json.IsSchema shape x

variable {v : Option Json}

theorem succeeds_propertiesOf_iff (known : ∀ x, v = some x → x.Throughout Judged) :
    Succeeds (propertiesOf here v) ↔ Fits v .table := by
  unfold Fits
  rcases v with _ | x
  · exact iff_of_true (succeeds_ok []) fun _ found => nomatch found
  simp only [Option.some.injEq, forall_eq'] at known ⊢
  cases x with
  | obj table =>
    have read : Succeeds (readTable (here.field "properties") table) ↔
        ∀ f ∈ table, f.2.IsSchema := succeeds_readTable_iff fun f hf => (known.field hf).here
    exact read.trans ⟨.table, fun h => by cases h with | table each => exact each⟩
  | _ => exact iff_of_false (not_succeeds_error _) fun h => nomatch h

theorem succeeds_schemaOf_iff {name : String} (known : ∀ x, v = some x → x.Throughout Judged) :
    Succeeds (schemaOf here name v) ↔ Fits v .schema := by
  unfold Fits
  rcases v with _ | x
  · exact iff_of_true (succeeds_ok none) fun _ found => nomatch found
  simp only [Option.some.injEq, forall_eq'] at known ⊢
  rw [schemaOf, succeeds_map_iff, known.here]
  exact ⟨.schema, fun h => by cases h with | schema one => exact one⟩

theorem succeeds_itemsOf_iff (known : ∀ x, v = some x → x.Throughout Judged) :
    Succeeds (itemsOf here v) ↔ Fits v .items := by
  unfold Fits
  rcases v with _ | x
  · exact iff_of_true (succeeds_ok none) fun _ found => nomatch found
  simp only [Option.some.injEq, forall_eq'] at known ⊢
  by_cases positions : ∃ xs, x = .arr xs
  · obtain ⟨xs, rfl⟩ := positions
    rw [itemsOf, succeeds_map_iff, succeeds_readList_iff fun x hx => (known.item hx).here]
    refine ⟨.positions, fun h => ?_⟩
    cases h with
    | every one => exact nomatch one
    | positions each => exact each
  · rw [itemsOf_every fun xs h => positions ⟨xs, h⟩, succeeds_map_iff, known.here]
    refine ⟨.every, fun h => ?_⟩
    cases h with
    | every one => exact one
    | positions _ => exact absurd ⟨_, rfl⟩ positions

theorem succeeds_anyOfOf_iff (known : ∀ x, v = some x → x.Throughout Judged) :
    Succeeds (anyOfOf here v) ↔ Fits v .list := by
  unfold Fits
  rcases v with _ | x
  · exact iff_of_true (succeeds_ok none) fun _ found => nomatch found
  simp only [Option.some.injEq, forall_eq'] at known ⊢
  cases x with
  | arr xs =>
    rw [anyOfOf, succeeds_map_iff, succeeds_readList_iff fun x hx => (known.item hx).here]
    exact ⟨.list, fun h => by cases h with | list each => exact each⟩
  | _ => exact iff_of_false (not_succeeds_error _) fun h => nomatch h

end

/-! ## Objects -/

section

variable {here : Pointer} {fields : Keywords}

theorem succeeds_readNumberRules_iff :
    Succeeds (readNumberRules here fields) ↔ Fits (fields.lookup "minimum") .bound ∧
      Fits (fields.lookup "maximum") .bound ∧ Fits (fields.lookup "exclusiveMinimum") .bound ∧
        Fits (fields.lookup "exclusiveMaximum") .bound := by
  have bound (name : String) :
      Succeeds (keyword fields name (readBound name (here.field name))) ↔
        Fits (fields.lookup name) .bound :=
    succeeds_keyword_iff fun _ => succeeds_readBound_iff
  unfold readNumberRules
  exact succeeds_bind_iff (bound _) fun _ => succeeds_bind_iff (bound _) fun _ =>
    succeeds_bind_iff (bound _) fun _ => succeeds_map_iff.trans (bound _)

theorem succeeds_text_iff (name : String) :
    Succeeds (keyword fields name (readString name (here.field name))) ↔
      Fits (fields.lookup name) .text :=
  succeeds_keyword_iff fun _ => succeeds_readString_iff

theorem succeeds_readStringRules_iff :
    Succeeds (readStringRules here fields) ↔ Fits (fields.lookup "format") .text ∧
      Fits (fields.lookup "pattern") .text ∧ Fits (fields.lookup "minLength") .length ∧
        Fits (fields.lookup "maxLength") .length := by
  have length (name : String) :
      Succeeds (keyword fields name (readLength name (here.field name))) ↔
        Fits (fields.lookup name) .length :=
    succeeds_keyword_iff fun _ => succeeds_readLength_iff
  unfold readStringRules
  exact succeeds_bind_iff (succeeds_text_iff _) fun _ =>
    succeeds_bind_iff (succeeds_text_iff _) fun _ =>
      succeeds_bind_iff (length _) fun _ => succeeds_map_iff.trans (length _)

/-- An object all of whose values are judged rightly is so itself. -/
theorem judged_obj (known : ∀ f ∈ fields, f.2.Throughout Judged) : Judged (.obj fields) := by
  intro here
  have value (name : String) (x : Json) (found : fields.lookup name = some x) :
      x.Throughout Judged := known (name, x) (Fields.mem_of_lookup found)
  have shaped : (Json.obj fields).IsSchema ↔
      ∀ k ∈ keywordShapes, Fits (fields.lookup k.1) k.2 := Json.isSchema_obj_iff
  have kinds : Succeeds (keyword fields "type" (readType (here.field "type"))) ↔
      Fits (fields.lookup "type") .kinds := succeeds_keyword_iff fun _ => succeeds_readType_iff
  have required : Succeeds (keyword fields "required" (readRequired (here.field "required"))) ↔
      Fits (fields.lookup "required") .names :=
    succeeds_keyword_iff fun _ => succeeds_readRequired_iff
  rw [shaped, read, readParts_eq, assemble]
  refine Iff.trans (succeeds_bind_iff kinds fun _ =>
    succeeds_bind_iff succeeds_readNumberRules_iff fun _ =>
    succeeds_bind_iff succeeds_readStringRules_iff fun _ =>
    succeeds_bind_iff (succeeds_propertiesOf_iff (value "properties")) fun _ =>
    succeeds_bind_iff required fun _ =>
    succeeds_bind_iff (succeeds_schemaOf_iff (value "additionalProperties")) fun _ =>
    succeeds_bind_iff (succeeds_itemsOf_iff (value "items")) fun _ =>
    succeeds_bind_iff (succeeds_anyOfOf_iff (value "anyOf")) fun _ =>
    succeeds_bind_iff (succeeds_schemaOf_iff (value "not")) fun _ =>
    succeeds_bind_iff (succeeds_text_iff "$ref") fun _ =>
    succeeds_map_iff.trans (succeeds_text_iff "$id")) ?_
  simp only [keywordShapes, List.forall_mem_cons, List.not_mem_nil, false_implies, implies_true,
    and_true, and_assoc]

/-- Every value is judged rightly, and so is all that stands in it. -/
theorem judged (x : Json) : x.Throughout Judged := by
  induction x using Json.parts_induction with
  | arr xs ih =>
    refine Json.throughout_arr.mpr ⟨fun _ => ?_, ih⟩
    exact iff_of_false (not_succeeds_error _) fun h => nomatch h
  | obj fields ih =>
    have known (f : String × Json) (hf : f ∈ fields) := ih f.1 f.2 hf
    exact Json.throughout_obj.mpr ⟨judged_obj known, known⟩
  | bool b =>
    refine Json.throughout_bool.mpr fun _ => iff_of_true ?_ (.bool b)
    cases b <;> exact succeeds_ok _
  | null =>
    refine Json.throughout_null.mpr fun _ => ?_
    exact iff_of_false (not_succeeds_error _) fun h => nomatch h
  | num n =>
    refine Json.throughout_num.mpr fun _ => ?_
    exact iff_of_false (not_succeeds_error _) fun h => nomatch h
  | str s =>
    refine Json.throughout_str.mpr fun _ => ?_
    exact iff_of_false (not_succeeds_error _) fun h => nomatch h

theorem succeeds_read_iff {x : Json} : Succeeds (read here x) ↔ x.IsSchema :=
  (judged x).here here

end

/-! ## Documents -/

theorem succeeds_readDefinitions_iff {fields : Keywords} {name : String} :
    Succeeds (readDefinitions fields name) ↔ ∀ x, fields.lookup name = some x →
      x = .null ∨ Shape.Holds Json.IsSchema .table x := by
  unfold readDefinitions
  rcases fields.lookup name with _ | x
  · exact iff_of_true (succeeds_ok []) fun _ found => nomatch found
  simp only [Option.some.injEq, forall_eq']
  cases x with
  | null => exact iff_of_true (succeeds_ok []) (.inl rfl)
  | obj table =>
    refine (succeeds_readTable_iff fun f _ => (judged f.2).here).trans ?_
    refine ⟨fun each => .inr (.table each), fun h => ?_⟩
    cases h with
    | inl null => exact nomatch null
    | inr shaped => cases shaped with | table each => exact each
  | _ =>
    refine iff_of_false (not_succeeds_error _) fun h => ?_
    cases h with
    | inl null => exact nomatch null
    | inr shaped => exact nomatch shaped

/-- A value is read as a document just if the grammar has it. -/
theorem ofDocument_succeeds_iff (document : Json) :
    (∃ s, ofDocument document = .ok s) ↔ document.IsDocument := by
  cases document with
  | obj fields =>
    have grammar : (Json.obj fields).IsDocument ↔ (Json.obj fields).IsSchema ∧
        ∀ name ∈ definitionKeywords, ∀ x, fields.lookup name = some x →
          x = .null ∨ Shape.Holds Json.IsSchema .table x :=
      ⟨fun h => by cases h with | obj schema tables => exact ⟨schema, tables⟩,
        fun h => .obj h.1 h.2⟩
    rw [grammar, definitionKeywords, List.forall_mem_cons, List.forall_mem_singleton, ofDocument]
    exact succeeds_bind_iff succeeds_read_iff fun _ =>
      succeeds_bind_iff succeeds_readDefinitions_iff fun _ =>
        succeeds_map_iff.trans succeeds_readDefinitions_iff
  | bool b =>
    refine iff_of_true ?_ (.bool b)
    cases b <;> exact succeeds_ok _
  | _ => exact iff_of_false (not_succeeds_error _) fun h => nomatch h

end Schema

end SchemaDrift
