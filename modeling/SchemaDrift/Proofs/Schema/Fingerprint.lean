import SchemaDrift.Proofs.Json.Messages
import SchemaDrift.Proofs.Schema.Parts
import SchemaDrift.Schema.Document

/-!
# Fingerprints determine schemas

* `Schema.determines_kind`, `Schema.determines_number` and their like are about the rules without
  further schemas.
* `Schema.determines_write`: the text of a schema determines the schema, and where it ends.
* `Schema.fingerprint_injective`: a schema is determined by its fingerprint.
-/

namespace SchemaDrift.Schema

open Writer

/-! ## Rules without further schemas -/

/-- A kind is found by the word that a text starts with. -/
theorem find_kindWord (k : Kind) (rest : List Char) :
    Kind.all.find? (fun l => (kindWord l).isPrefixOf (kindWord k ++ rest)) = some k := by
  cases k <;> rfl

theorem determines_kind (k : Kind) : Determines writeKind k := by
  intro l r s _ _ h
  have found := find_kindWord k r
  rw [show kindWord k ++ r = kindWord l ++ s from h, find_kindWord] at found
  obtain rfl := Option.some.inj found
  exact ⟨rfl, List.append_cancel_left h⟩

theorem opens_kind : Opens writeKind := fun _ _ => ⟨'<', _, rfl, by decide⟩

theorem doubleValue_injective : Function.Injective doubleValue :=
  fun _ _ h => Number.double.inj (Json.num.inj h)

theorem lengthValue_injective : Function.Injective lengthValue :=
  fun _ _ h => Int.ofNat.inj (Number.int.inj (Json.num.inj h))

theorem determines_bound (x : Double) : Determines writeBound x :=
  .of_injective doubleValue_injective (Json.determines_message _)

theorem determines_length (n : Nat) : Determines writeLength n :=
  .of_injective lengthValue_injective (Json.determines_message _)

theorem ne_none_of_value {x : Json} (h : x ≠ .null) (r s : List Char) :
    Json.spell Json.message x r ≠ "None".toList ++ s := by
  intro same
  have null : "None".toList ++ s = Json.spell Json.message .null s := rfl
  rw [null] at same
  cases x with
  | null => exact h rfl
  | _ => exact nomatch Json.kind_eq_of_message same

theorem ne_none_of_quoted (name : String) (r s : List Char) :
    Writer.quoted name r ≠ "None".toList ++ s :=
  ne_none_of_value (x := .str name) nofun r s

theorem determines_const (const : Option Json) : Determines writeConst const :=
  .optional (fun x r s => Json.message_ne (by decide) x r _) fun x _ => Json.determines_message x

theorem determines_limit (bound : Option Double) :
    Determines (optional "None" writeBound) bound :=
  .optional (fun x => ne_none_of_value (x := doubleValue x) nofun) fun x _ => determines_bound x

theorem determines_size (length : Option Nat) : Determines (optional "None" writeLength) length :=
  .optional (fun n => ne_none_of_value (x := lengthValue n) nofun) fun n _ => determines_length n

theorem determines_name (name : Option String) :
    Determines (optional "None" Writer.quoted) name :=
  .optional ne_none_of_quoted fun s _ => determines_quoted s

theorem determines_kinds (kinds : Option (List Kind)) :
    Determines (optional "None" (tuple writeKind)) kinds :=
  .optional (fun _ _ _ same => absurd (List.cons.inj same).1 (by decide))
    fun _ _ => .tuple opens_kind fun k _ => determines_kind k

theorem determines_number (rules : NumberRules) : Determines writeNumber rules := by
  obtain ⟨minimum, maximum, above, below⟩ := rules
  rintro ⟨minimum', maximum', above', below'⟩ r s _ _ h
  obtain ⟨rfl, h⟩ := (determines_limit minimum).next (List.append_cancel_left h)
  obtain ⟨rfl, h⟩ := (determines_limit maximum).next h
  obtain ⟨rfl, h⟩ := (determines_limit above).next h
  obtain ⟨rfl, rest⟩ := (determines_limit below).before (by decide) h
  exact ⟨rfl, rest⟩

theorem determines_text (rules : StringRules) : Determines writeText rules := by
  obtain ⟨format, pattern, shortest, longest⟩ := rules
  rintro ⟨format', pattern', shortest', longest'⟩ r s _ _ h
  obtain ⟨rfl, h⟩ := (determines_name format).next (List.append_cancel_left h)
  obtain ⟨rfl, h⟩ := (determines_name pattern).next h
  obtain ⟨rfl, h⟩ := (determines_size shortest).next h
  obtain ⟨rfl, rest⟩ := (determines_size longest).before (by decide) h
  exact ⟨rfl, rest⟩

theorem determines_required (names : List String) : Determines writeRequired names := by
  intro names' r s _ _ h
  have members := List.append_cancel_left h
  rcases names with _ | ⟨name, names⟩ <;> rcases names' with _ | ⟨name', names'⟩
  · exact ⟨rfl, (List.cons.inj members).2⟩
  · exact absurd (List.cons.inj members).1 (by decide)
  · exact absurd (List.cons.inj members).1 (by decide)
  · obtain ⟨same, ends⟩ := entries_inj (fun name _ => determines_quoted name) (.inl rfl)
      (opens_quoted.ends (by decide) (')' :: r)) (opens_quoted.ends (by decide) (')' :: s))
      (List.cons.inj members).2
    exact ⟨same, (List.cons.inj (List.cons.inj ends).2).2⟩

/-! ## Rules that hold schemas -/

/-- A rule on items that is there. -/
def writeRule : Writer (Items Schema)
  | .every s, rest => write s rest
  | .positions ss, rest => tuple write ss rest

theorem writeFields_eq (lead : List Char) (fs : List (String × Schema)) (rest : List Char) :
    writeFields lead fs rest = entries (keyed write) lead fs rest := by
  induction fs generalizing lead with
  | nil => rfl
  | cons f fs ih =>
    rw [writeFields, entries, ih]
    rfl

theorem writeEntries_eq (lead : List Char) (ss : List Schema) (rest : List Char) :
    writeEntries lead ss rest = entries write lead ss rest := by
  induction ss generalizing lead with
  | nil => rfl
  | cons s ss ih => rw [writeEntries, entries, ih]

theorem writeOption_eq : writeOption = optional "None" write := by
  funext o rest
  cases o <;> rfl

theorem writeItems_eq : writeItems = optional "None" writeRule := by
  funext o rest
  rcases o with _ | (s | ss)
  · rfl
  · rfl
  · rw [writeItems, writeEntries_eq]
    rfl

theorem writeBranches_eq : writeBranches = optional "None" (tuple write) := by
  funext o rest
  rcases o with _ | ss
  · rfl
  · rw [writeBranches, writeEntries_eq]
    rfl

theorem write_lead (s : Schema) (rest : List Char) : ∃ cs, write s rest = 'S' :: cs := by
  cases s
  exact ⟨_, rfl⟩

theorem opens_write : Opens write := by
  intro s rest
  obtain ⟨cs, text⟩ := write_lead s rest
  exact ⟨'S', cs, text, by decide⟩

theorem write_ne {c : Char} (hc : c ≠ 'S') (s : Schema) (rest cs : List Char) :
    write s rest ≠ c :: cs := by
  obtain ⟨ds, text⟩ := write_lead s rest
  rw [text]
  exact fun same => hc (List.cons.inj same).1.symm

theorem determines_rule {rule : Items Schema} (every : ∀ s, rule = .every s → Determines write s)
    (positions : ∀ ss, rule = .positions ss → ∀ s ∈ ss, Determines write s) :
    Determines writeRule rule := by
  intro rule' r r' hr hs h
  rcases rule with s | ss <;> rcases rule' with t | ts
  · obtain ⟨rfl, rest⟩ := every s rfl hr hs h
    exact ⟨rfl, rest⟩
  · exact absurd (show write s r = '(' :: _ from h) (write_ne (by decide) s r _)
  · exact absurd (show write t r' = '(' :: _ from h.symm) (write_ne (by decide) t r' _)
  · obtain ⟨rfl, rest⟩ := Determines.tuple opens_write (positions ss rfl) hr hs h
    exact ⟨rfl, rest⟩

/-! ## Schemas -/

/-- The text of a schema, made from the texts of its rules. -/
theorem write_eq (s : Schema) (rest : List Char) :
    write s rest =
    (word "SchemaNode(instance_type=" <| optional "None" (tuple writeKind) s.kinds <|
      next "const" <| writeConst s.const <|
      next "number" <| writeNumber s.number <|
      next "string" <| writeText s.text <|
      next "object" <|
        word "ObjectFacet(properties=" <| table write s.properties <|
        next "required" <| writeRequired s.required <|
        next "additional_properties" <| optional "None" write s.additional <| .cons ')' <|
      next "array" <| word "ArrayFacet(items=" <| optional "None" writeRule s.items <| .cons ')' <|
      next "any_of" <| optional "None" (tuple write) s.anyOf <|
      next "not_" <| optional "None" write s.negated <|
      next "ref" <| optional "None" Writer.quoted s.reference <|
      next "schema_id" <| optional "None" Writer.quoted s.identifier <|
      next "definitions" <| table write s.definitions <| ')' :: rest) := by
  cases s
  unfold write
  rw [writeOption_eq, writeItems_eq, writeBranches_eq, writeFields_eq, writeFields_eq]
  rfl

/-- The text of a schema determines the schema, and where it ends. The fields are read one by one,
and the induction is on the schemas in them. -/
theorem determines_write (s : Schema) : Determines write s := by
  induction s using child_induction with
  | step s ih =>
    intro t r r' _ _ h
    rw [write_eq, write_eq] at h
    obtain ⟨kinds, const, number, text, properties, required, additional, items, anyOf, negated,
      reference, identifier, definitions⟩ := s
    obtain ⟨kinds', const', number', text', properties', required', additional', items', anyOf',
      negated', reference', identifier', definitions'⟩ := t
    have absent (s : Schema) (r t : List Char) : write s r ≠ 'N' :: 'o' :: 'n' :: 'e' :: t :=
      write_ne (by decide) s r _
    have declared : Determines (table write) properties :=
      .table fun f hf => ih f.2 (.property hf)
    have further : Determines (optional "None" write) additional :=
      .optional absent fun u hu => ih u (.additional hu)
    have rule : Determines (optional "None" writeRule) items := by
      refine .optional (fun rule r t => ?_) fun rule hrule => ?_
      · cases rule with
        | every s => exact absent s r t
        | positions ss => exact fun same => absurd (List.cons.inj same).1 (by decide)
      · exact determines_rule (fun s hs => ih s (.every (hs ▸ hrule)))
          fun ss hss s hs => ih s (.position (hss ▸ hrule) hs)
    have branches : Determines (optional "None" (tuple write)) anyOf :=
      .optional (fun _ _ _ same => absurd (List.cons.inj same).1 (by decide))
        fun ss hss => .tuple opens_write fun s hs => ih s (.branch hss hs)
    have excluded : Determines (optional "None" write) negated :=
      .optional absent fun u hu => ih u (.negated hu)
    have defined : Determines (table write) definitions :=
      .table fun f hf => ih f.2 (.definition hf)
    obtain ⟨rfl, h⟩ := (determines_kinds kinds).next (List.append_cancel_left h)
    obtain ⟨rfl, h⟩ := (determines_const const).next h
    obtain ⟨rfl, h⟩ := (determines_number number).next h
    obtain ⟨rfl, h⟩ := (determines_text text).next h
    obtain ⟨rfl, h⟩ := declared.next (List.append_cancel_left h)
    obtain ⟨rfl, h⟩ := (determines_required required).next h
    obtain ⟨rfl, h⟩ := further.before (by decide) h
    obtain ⟨rfl, h⟩ := rule.before (by decide) (List.append_cancel_left (next_injective _ h))
    obtain ⟨rfl, h⟩ := branches.next (next_injective _ h)
    obtain ⟨rfl, h⟩ := excluded.next h
    obtain ⟨rfl, h⟩ := (determines_name reference).next h
    obtain ⟨rfl, h⟩ := (determines_name identifier).next h
    obtain ⟨rfl, rest⟩ := defined.before (by decide) h
    exact ⟨rfl, rest⟩

/-- A schema is determined by its fingerprint. -/
theorem fingerprint_injective : Function.Injective fingerprint := by
  intro s t h
  have nothing : StopsNumber [] := fun _ hc => nomatch hc
  rw [fingerprint, text_eq, text_eq] at h
  exact (determines_write s nothing nothing (String.ofList_injective h)).1

end SchemaDrift.Schema
