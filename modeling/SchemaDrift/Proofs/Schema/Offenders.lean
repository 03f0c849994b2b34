import SchemaDrift.Proofs.Pointer
import SchemaDrift.Proofs.Schema.Grammar

/-!
# Faults point at the offender

Where a document is refused for a malformed value, the pointer of the fault leads to one.

* `Json.SchemaAt` says which values stand in the place of a schema.
* `Json.Offends` says what is malformed for its place: a value in the place of a schema that is
  neither an object nor a boolean, a value that lacks the shape of its keyword, and a table of
  definitions that is none.
* `Schema.Blames` holds of a result that blames none but the places of a set; `Schema.Blames.bind`
  and its companions put such results together.
* `Schema.fault_locates_offender`: the pointer, evaluated on the document, leads to an offender.
-/

namespace SchemaDrift

open Schema

/-! ## Offenders -/

namespace Schema

/-- A schema stands in a value of some shape, at a pointer. -/
inductive Shape.Member : Shape → Json → Pointer → Json → Prop where
  | schema (x : Json) : Member .schema x [] x
  | entry {table : Keywords} {key : String} {x : Json} :
    (key, x) ∈ table → Member .table (.obj table) [key] x
  | branch {xs : List Json} {i : Nat} {x : Json} :
    xs[i]? = some x → Member .list (.arr xs) [toString i] x
  | every {x : Json} : (∀ xs, x ≠ .arr xs) → Member .items x [] x
  | position {xs : List Json} {i : Nat} {x : Json} :
    xs[i]? = some x → Member .items (.arr xs) [toString i] x

theorem Shape.Member.part {shape : Shape} {x y : Json} {q : Pointer} (h : shape.Member x q y) :
    Json.Part y x := by
  cases h with
  | schema | every => exact .whole _
  | entry listed => exact .field (.whole _) listed
  | branch found | position found => exact .item (.whole _) (List.mem_of_getElem? found)

theorem Shape.Member.stands {shape : Shape} {x y : Json} {q : Pointer} (h : shape.Member x q y) :
    x.Stands q y := by
  cases h with
  | schema | every => exact .here _
  | entry listed => exact .field listed (.here _)
  | branch found | position found => exact .item found (.here _)

end Schema

namespace Json

/-- A value stands in the place of a schema: it is the document, or a definition of it, or some
keyword of an object in such a place has it for a schema. -/
inductive SchemaAt (root : Json) : Pointer → Json → Prop where
  | root : SchemaAt root Pointer.root root
  | definition {fields : Keywords} {name : String} {x y : Json} {q : Pointer} :
    root = .obj fields → name ∈ definitionKeywords → fields.lookup name = some x →
      Shape.Member .table x q y → SchemaAt root (Pointer.root.field name ++ q) y
  | keyword {p q : Pointer} {fields : Keywords} {name : String} {shape : Shape} {x y : Json} :
    SchemaAt root p (.obj fields) → (name, shape) ∈ keywordShapes →
      fields.lookup name = some x → shape.Member x q y → SchemaAt root (p.field name ++ q) y

/-- A value is malformed for its place. Only its own shape counts, not what stands in it for
schemas. -/
inductive Offends (root : Json) : Pointer → Json → Prop where
  | noSchema {p : Pointer} {x : Json} :
    root.SchemaAt p x → (∀ b, x ≠ .bool b) → (∀ fields, x ≠ .obj fields) → Offends root p x
  | misshapen {p : Pointer} {fields : Keywords} {name : String} {shape : Shape} {x : Json} :
    root.SchemaAt p (.obj fields) → (name, shape) ∈ keywordShapes →
      fields.lookup name = some x → ¬ shape.Holds (fun _ => True) x → Offends root (p.field name) x
  | noTable {fields : Keywords} {name : String} {x : Json} :
    root = .obj fields → name ∈ definitionKeywords → fields.lookup name = some x → x ≠ .null →
      ¬ Shape.table.Holds (fun _ => True) x → Offends root (Pointer.root.field name) x

theorem SchemaAt.stands {root x : Json} {p : Pointer} (h : root.SchemaAt p x) :
    root.Stands p x := by
  induction h with
  | root => exact .here _
  | definition object _ found member =>
    subst object
    exact ((Stands.here _).in_field (Fields.mem_of_lookup found)).trans member.stands
  | keyword _ _ found member ih =>
    exact (ih.in_field (Fields.mem_of_lookup found)).trans member.stands

theorem Offends.stands {root x : Json} {p : Pointer} (h : root.Offends p x) :
    root.Stands p x := by
  cases h with
  | noSchema place => exact place.stands
  | misshapen place _ found => exact place.stands.in_field (Fields.mem_of_lookup found)
  | noTable object _ found =>
    subst object
    exact (Stands.here _).in_field (Fields.mem_of_lookup found)

end Json

namespace Schema

/-! ## Blame -/

/-- Whatever malformed value a result blames stands at a guilty place. -/
def Blames {α : Type} (guilty : Pointer → Prop) (r : Except Fault α) : Prop :=
  ∀ what p, r = .error (.malformed what p) → guilty p

namespace Blames

variable {α β : Type} {guilty : Pointer → Prop}

theorem ok (x : α) : Blames guilty (.ok x) := fun _ _ h => nomatch h

theorem fault {p : Pointer} (h : guilty p) (what : Malformation) :
    Blames guilty (.error (.malformed what p) : Except Fault α) := by
  intro _ _ same
  cases same
  exact h

theorem own (here : Pointer) (what : Malformation) :
    Blames (· = here) (.error (.malformed what here) : Except Fault α) := by
  intro _ _ same
  cases same
  rfl

theorem bind {r : Except Fault α} {f : α → Except Fault β} (first : Blames guilty r)
    (next : ∀ x, Blames guilty (f x)) : Blames guilty (r >>= f) := by
  cases r with
  | error e =>
    intro what p same
    exact first what p (congrArg _ (Except.error.inj same))
  | ok x => exact next x

theorem map {r : Except Fault α} (h : Blames guilty r) (f : α → β) : Blames guilty (f <$> r) := by
  cases r with
  | error e =>
    intro what p same
    exact h what p (congrArg _ (Except.error.inj same))
  | ok x => exact ok (f x)

theorem keyword {fields : Keywords} {name : String} {read : Json → Except Fault α}
    (h : ∀ x, fields.lookup name = some x → Blames guilty (read x)) :
    Blames guilty (keyword fields name read) := by
  rw [keyword_eq]
  rcases found : fields.lookup name with _ | x
  · exact ok none
  · exact (h x found).map some

end Blames

/-! ## Keywords without further schemas -/

section

variable {here : Pointer} {name : String} {x : Json}

theorem readKind_blames : Blames (· = here) (readKind here x) := by
  unfold readKind
  split
  · split
    · exact .ok _
    · exact .own _ _
  · exact .own _ _

theorem readKinds_blames {xs : List Json} : Blames (· = here) (readKinds here xs) := by
  induction xs with
  | nil => exact .ok []
  | cons x xs ih =>
    rw [readKinds]
    exact readKind_blames.bind fun _ => ih.bind fun _ => .ok _

theorem readType_blames : Blames (· = here) (readType here x) := by
  unfold readType
  split <;> exact readKinds_blames

theorem readBound_blames : Blames (· = here) (readBound name here x) := by
  unfold readBound
  split
  · dsimp only
    split
    · exact .ok _
    · exact fun _ _ h => nomatch h
  · split
    · exact .ok _
    · exact .own _ _
  · exact .own _ _

theorem readLength_blames : Blames (· = here) (readLength name here x) := by
  unfold readLength
  dsimp only
  split
  · exact .ok _
  · exact .own _ _

theorem readString_blames : Blames (· = here) (readString name here x) := by
  unfold readString
  split
  · exact .ok _
  · exact .own _ _

theorem readRequired_blames : Blames (· = here) (readRequired here x) := by
  unfold readRequired
  split
  · split
    · exact .ok _
    · exact .own _ _
  · exact .own _ _

end

/-- Some value at a pointer is malformed for its place. -/
def OffenderAt (root : Json) (p : Pointer) : Prop := ∃ x, root.Offends p x

section

variable {root : Json} {here : Pointer} {fields : Keywords}

/-- A reader that fails only for values without the shape of the keyword, and blames them, blames
offenders. -/
theorem keyword_blames {α : Type} {name : String} {shape : Shape} {read : Json → Except Fault α}
    (place : root.SchemaAt here (.obj fields)) (listed : (name, shape) ∈ keywordShapes)
    (reads : ∀ x, Succeeds (read x) ↔ shape.Holds (fun _ => True) x)
    (own : ∀ x, Blames (· = here.field name) (read x)) :
    Blames (OffenderAt root) (keyword fields name read) := by
  refine .keyword fun x found what p failed => ?_
  obtain rfl := own x what p failed
  refine ⟨x, .misshapen place listed found fun shaped => ?_⟩
  obtain ⟨a, read⟩ := (reads x).mpr shaped
  exact nomatch read.symm.trans failed

theorem readNumberRules_blames (place : root.SchemaAt here (.obj fields)) :
    Blames (OffenderAt root) (readNumberRules here fields) := by
  have bound (name : String) (listed : (name, Shape.bound) ∈ keywordShapes) :
      Blames (OffenderAt root) (keyword fields name (readBound name (here.field name))) :=
    keyword_blames place listed (fun _ => succeeds_readBound_iff) fun _ => readBound_blames
  unfold readNumberRules
  exact (bound "minimum" (by decide)).bind fun _ => (bound "maximum" (by decide)).bind fun _ =>
    (bound "exclusiveMinimum" (by decide)).bind fun _ =>
      (bound "exclusiveMaximum" (by decide)).bind fun _ => .ok _

theorem text_blames (place : root.SchemaAt here (.obj fields)) (name : String)
    (listed : (name, Shape.text) ∈ keywordShapes) :
    Blames (OffenderAt root) (keyword fields name (readString name (here.field name))) :=
  keyword_blames place listed (fun _ => succeeds_readString_iff) fun _ => readString_blames

theorem readStringRules_blames (place : root.SchemaAt here (.obj fields)) :
    Blames (OffenderAt root) (readStringRules here fields) := by
  have length (name : String) (listed : (name, Shape.length) ∈ keywordShapes) :
      Blames (OffenderAt root) (keyword fields name (readLength name (here.field name))) :=
    keyword_blames place listed (fun _ => succeeds_readLength_iff) fun _ => readLength_blames
  unfold readStringRules
  exact (text_blames place "format" (by decide)).bind fun _ =>
    (text_blames place "pattern" (by decide)).bind fun _ =>
      (length "minLength" (by decide)).bind fun _ =>
        (length "maxLength" (by decide)).bind fun _ => .ok _

/-! ## Keywords that hold schemas -/

theorem readTable_blames {guilty : Pointer → Prop} {table : Keywords}
    (known : ∀ f ∈ table, Blames guilty (read (here.field f.1) f.2)) :
    Blames guilty (readTable here table) := by
  induction table with
  | nil => exact .ok []
  | cons f rest ih =>
    rw [readTable]
    exact (known f List.mem_cons_self).bind fun _ =>
      (ih fun g hg => known g (List.mem_cons_of_mem _ hg)).bind fun _ => .ok _

theorem readList_blames {guilty : Pointer → Prop} {position : Nat} {xs : List Json}
    (known : ∀ i x, xs[i]? = some x → Blames guilty (read (here.item (position + i)) x)) :
    Blames guilty (readList here position xs) := by
  induction xs generalizing position with
  | nil => exact .ok []
  | cons x xs ih =>
    rw [readList]
    refine (known 0 x rfl).bind fun _ => (ih fun i y found => ?_).bind fun _ => .ok _
    rw [Nat.add_right_comm, Nat.add_assoc]
    exact known (i + 1) y found

/-- Reading a value that stands in the place of a schema blames offenders. -/
def BlamesOffenders (root x : Json) : Prop :=
  ∀ here, root.SchemaAt here x → Blames (OffenderAt root) (read here x)

/-- The schemas that a keyword of an object holds. -/
theorem blames_member (place : root.SchemaAt here (.obj fields))
    (known : ∀ f ∈ fields, f.2.Throughout (BlamesOffenders root)) {name : String} {shape : Shape}
    (listed : (name, shape) ∈ keywordShapes) {x y : Json} {q : Pointer}
    (found : fields.lookup name = some x) (member : shape.Member x q y) :
    Blames (OffenderAt root) (read (here.field name ++ q) y) :=
  known (name, x) (Fields.mem_of_lookup found) y member.part _ (place.keyword listed found member)

theorem propertiesOf_blames (place : root.SchemaAt here (.obj fields))
    (known : ∀ f ∈ fields, f.2.Throughout (BlamesOffenders root)) :
    Blames (OffenderAt root) (propertiesOf here (fields.lookup "properties")) := by
  rcases found : fields.lookup "properties" with _ | x
  · exact .ok []
  · cases x with
    | obj table =>
      exact readTable_blames fun f hf =>
        blames_member place known (by decide) found (.entry hf)
    | _ =>
      have listed : ("properties", Shape.table) ∈ keywordShapes := by decide
      exact .fault ⟨_, .misshapen place listed found fun h => nomatch h⟩ _

theorem schemaOf_blames (place : root.SchemaAt here (.obj fields))
    (known : ∀ f ∈ fields, f.2.Throughout (BlamesOffenders root)) {name : String}
    (listed : (name, Shape.schema) ∈ keywordShapes) :
    Blames (OffenderAt root) (schemaOf here name (fields.lookup name)) := by
  rcases found : fields.lookup name with _ | x
  · exact .ok none
  · have one := blames_member place known listed found (.schema x)
    rw [List.append_nil] at one
    exact one.map some

theorem itemsOf_blames (place : root.SchemaAt here (.obj fields))
    (known : ∀ f ∈ fields, f.2.Throughout (BlamesOffenders root)) :
    Blames (OffenderAt root) (itemsOf here (fields.lookup "items")) := by
  rcases found : fields.lookup "items" with _ | x
  · exact .ok none
  by_cases positions : ∃ xs, x = .arr xs
  · obtain ⟨xs, rfl⟩ := positions
    refine (readList_blames fun i y hy => ?_).map _
    rw [Nat.zero_add]
    exact blames_member place known (by decide) found (.position hy)
  · have single : ∀ xs, x ≠ .arr xs := fun xs h => positions ⟨xs, h⟩
    have one := blames_member place known (by decide) found (.every single)
    rw [List.append_nil] at one
    rw [itemsOf_every single]
    exact one.map _

theorem anyOfOf_blames (place : root.SchemaAt here (.obj fields))
    (known : ∀ f ∈ fields, f.2.Throughout (BlamesOffenders root)) :
    Blames (OffenderAt root) (anyOfOf here (fields.lookup "anyOf")) := by
  rcases found : fields.lookup "anyOf" with _ | x
  · exact .ok none
  · cases x with
    | arr xs =>
      refine (readList_blames fun i y hy => ?_).map some
      rw [Nat.zero_add]
      exact blames_member place known (by decide) found (.branch hy)
    | _ =>
      have listed : ("anyOf", Shape.list) ∈ keywordShapes := by decide
      exact .fault ⟨_, .misshapen place listed found fun h => nomatch h⟩ _

/-! ## Schemas -/

/-- An object blames offenders, if all that stands in it does. -/
theorem blamesOffenders_obj (known : ∀ f ∈ fields, f.2.Throughout (BlamesOffenders root)) :
    BlamesOffenders root (.obj fields) := by
  intro here place
  have kinds : Blames (OffenderAt root) (keyword fields "type" (readType (here.field "type"))) :=
    keyword_blames place (by decide) (fun _ => succeeds_readType_iff) fun _ => readType_blames
  have required : Blames (OffenderAt root)
      (keyword fields "required" (readRequired (here.field "required"))) :=
    keyword_blames place (by decide) (fun _ => succeeds_readRequired_iff)
      fun _ => readRequired_blames
  rw [read, readParts_eq, assemble]
  refine kinds.bind fun _ => (readNumberRules_blames place).bind fun _ => ?_
  refine (readStringRules_blames place).bind fun _ => ?_
  refine (propertiesOf_blames place known).bind fun _ => required.bind fun _ => ?_
  refine (schemaOf_blames place known (by decide)).bind fun _ => ?_
  refine (itemsOf_blames place known).bind fun _ => (anyOfOf_blames place known).bind fun _ => ?_
  refine (schemaOf_blames place known (by decide)).bind fun _ => ?_
  refine (text_blames place "$ref" (by decide)).bind fun _ => ?_
  exact (text_blames place "$id" (by decide)).bind fun _ => .ok _

/-- All that stands in a document blames offenders. -/
theorem blamesOffenders (root x : Json) : x.Throughout (BlamesOffenders root) := by
  have noSchema {x : Json} (bool : ∀ b, x ≠ .bool b) (obj : ∀ fields, x ≠ .obj fields)
      (read : ∀ here, read here x = .error (.malformed (.noSchema x) here)) :
      BlamesOffenders root x := by
    intro here place
    rw [read]
    exact .fault ⟨x, .noSchema place bool obj⟩ _
  induction x using Json.parts_induction with
  | arr xs ih =>
    exact Json.throughout_arr.mpr ⟨noSchema (fun _ h => nomatch h) (fun _ h => nomatch h)
      fun _ => rfl, ih⟩
  | obj fields ih =>
    have known (f : String × Json) (hf : f ∈ fields) := ih f.1 f.2 hf
    exact Json.throughout_obj.mpr ⟨blamesOffenders_obj known, known⟩
  | bool b =>
    refine Json.throughout_bool.mpr fun _ _ => ?_
    cases b <;> exact .ok _
  | null =>
    exact Json.throughout_null.mpr (noSchema (fun _ h => nomatch h) (fun _ h => nomatch h)
      fun _ => rfl)
  | num n =>
    exact Json.throughout_num.mpr (noSchema (fun _ h => nomatch h) (fun _ h => nomatch h)
      fun _ => rfl)
  | str s =>
    exact Json.throughout_str.mpr (noSchema (fun _ h => nomatch h) (fun _ h => nomatch h)
      fun _ => rfl)

end

/-! ## Documents -/

theorem readDefinitions_blames (fields : Keywords) {name : String}
    (listed : name ∈ definitionKeywords) :
    Blames (OffenderAt (.obj fields)) (readDefinitions fields name) := by
  unfold readDefinitions
  rcases found : fields.lookup name with _ | x
  · exact .ok []
  · cases x with
    | null => exact .ok []
    | obj table =>
      exact readTable_blames fun f hf =>
        (blamesOffenders _ f.2).here _ (.definition rfl listed found (.entry hf))
    | _ =>
      exact .fault ⟨_, .noTable rfl listed found (fun h => nomatch h) fun h => nomatch h⟩ _

theorem ofDocument_blames (document : Json) :
    Blames (OffenderAt document) (ofDocument document) := by
  have root := (blamesOffenders document document).here Pointer.root .root
  unfold ofDocument
  refine root.bind fun _ => ?_
  cases document with
  | obj fields =>
    exact (readDefinitions_blames fields (by decide)).bind fun _ =>
      (readDefinitions_blames fields (by decide)).bind fun _ => .ok _
  | _ => exact .ok _

/-- The pointer of a fault, evaluated on the document, leads to a value that is malformed for its
place. -/
theorem fault_locates_offender {document : Json} (distinct : document.Throughout Json.DistinctKeys)
    {what : Malformation} {p : Pointer} (h : ofDocument document = .error (.malformed what p)) :
    ∃ x, Pointer.evaluate p.render document = some x ∧ document.Stands p x ∧
      document.Offends p x := by
  obtain ⟨x, offends⟩ := ofDocument_blames document what p h
  exact ⟨x, Pointer.evaluate_render offends.stands distinct, offends.stands, offends⟩

/-- A document with a bound that is no number, inside a property whose name has to be escaped. -/
def awkwardDocument : Json :=
  .obj [("properties", .obj [("in/out~", .obj [("items",
    .arr [.bool true, .obj [("minimum", .str "low")]])])])]

theorem fault_locates_offender_awkward :
    awkwardDocument.Throughout Json.DistinctKeys ∧
      (∃ p, ofDocument awkwardDocument = .error (.malformed (.noNumber "minimum") p) ∧
        p.render = "/properties/in~1out~0/items/1/minimum") ∧
      ∃ x, Pointer.evaluate "/properties/in~1out~0/items/1/minimum" awkwardDocument = some x ∧
        awkwardDocument.Stands ["properties", "in/out~", "items", "1", "minimum"] x ∧
        awkwardDocument.Offends ["properties", "in/out~", "items", "1", "minimum"] x := by
  have distinct : awkwardDocument.Throughout Json.DistinctKeys := by
    simp [awkwardDocument, Json.DistinctKeys, Fields.keys]
  have failed : ofDocument awkwardDocument = .error (.malformed (.noNumber "minimum")
      ["properties", "in/out~", "items", "1", "minimum"]) := rfl
  have text : Pointer.render ["properties", "in/out~", "items", "1", "minimum"] =
      "/properties/in~1out~0/items/1/minimum" := by decide +kernel
  have located := fault_locates_offender distinct failed
  rw [text] at located
  exact ⟨distinct, ⟨_, failed, text⟩, located⟩

end Schema

end SchemaDrift
