import SchemaDrift.Proofs.Json.Equality
import SchemaDrift.Proofs.Schema.Reads

/-!
# Faults of reading

Reading a document fails at a malformed value, with one exception. A bound may be an integer of any
size, but it is read as a double. An integer beyond their range is not taken for an infinite bound,
which would be malformed as any other that is not finite: it has a fault of its own.

* `Json.Stands` says where a value stands in a document.
* `Schema.cappedDocument` is a document in which bounds beyond the range are infinite doubles.
* `Schema.Caps` compares what comes of reading a document and of reading it so capped;
  `Schema.Caps.bind` and its companions put such comparisons together.
* `Schema.caps_read` and `Schema.caps_ofDocument` are the comparisons for schemas and documents.
-/

namespace SchemaDrift

/-! ## Places in a document -/

/-- A value stands in another one, at a pointer. -/
inductive Json.Stands : Json → Pointer → Json → Prop where
  | here (x : Json) : Stands x [] x
  | field {fields : List (String × Json)} {name : String} {x y : Json} {p : Pointer} :
    (name, x) ∈ fields → Stands x p y → Stands (.obj fields) (name :: p) y
  | item {xs : List Json} {i : Nat} {x y : Json} {p : Pointer} :
    xs[i]? = some x → Stands x p y → Stands (.arr xs) (toString i :: p) y

theorem Json.Stands.trans {x y z : Json} {p q : Pointer} (h : Stands x p y) (k : Stands y q z) :
    Stands x (p ++ q) z := by
  induction h with
  | here => exact k
  | field hmem _ ih => exact .field hmem (ih k)
  | item found _ ih => exact .item found (ih k)

theorem Json.Stands.in_field {root x : Json} {p : Pointer} {fields : List (String × Json)}
    {name : String} (h : root.Stands p (.obj fields)) (hmem : (name, x) ∈ fields) :
    root.Stands (p.field name) x :=
  h.trans (.field hmem (.here x))

theorem Json.Stands.in_item {root x : Json} {p : Pointer} {xs : List Json} {i : Nat}
    (h : root.Stands p (.arr xs)) (found : xs[i]? = some x) : root.Stands (p.item i) x :=
  h.trans (.item found (.here x))

/-- An integer beyond the range of doubles stands at a pointer. -/
def Json.OversizedAt (root : Json) (p : Pointer) : Prop :=
  ∃ n, root.Stands p (.num (.int n)) ∧ (Double.ofInt n).isFinite = false

namespace Schema

/-! ## Capped documents -/

def boundNames : List String := ["minimum", "maximum", "exclusiveMinimum", "exclusiveMaximum"]

/-- A bound that is an integer beyond the range of doubles becomes infinite. -/
def cappedBound : Json → Json
  | .num (.int n) =>
    if (Double.ofInt n).isFinite then .num (.int n) else .num (.double (.ofInt n))
  | x => x

mutual

/-- A schema with its bounds capped, and those of all schemas in it. -/
def capped : Json → Json
  | .obj fields => .obj (cappedFields fields)
  | x => x

def cappedFields : Keywords → Keywords
  | [] => []
  | (name, value) :: rest =>
    (name,
      if name ∈ boundNames then cappedBound value
      else if name = "properties" then
        match value with
        | .obj table => .obj (cappedTable table)
        | x => x
      else if name ∈ ["items", "anyOf"] then
        match value with
        | .arr xs => .arr (cappedList xs)
        | rule => capped rule
      else if name ∈ ["additionalProperties", "not"] then capped value
      else value) :: cappedFields rest

def cappedTable : List (String × Json) → List (String × Json)
  | [] => []
  | (name, value) :: rest => (name, capped value) :: cappedTable rest

def cappedList : List Json → List Json
  | [] => []
  | x :: xs => capped x :: cappedList xs

end

def cappedObject : Json → Json
  | .obj table => .obj (cappedTable table)
  | x => x

def cappedItems : Json → Json
  | .arr xs => .arr (cappedList xs)
  | rule => capped rule

def cappedValue (name : String) (value : Json) : Json :=
  if name ∈ boundNames then cappedBound value
  else if name = "properties" then cappedObject value
  else if name ∈ ["items", "anyOf"] then cappedItems value
  else if name ∈ ["additionalProperties", "not"] then capped value
  else value

/-- The value of a keyword at the root with capped bounds; definitions are schemas too. -/
def cappedRootValue (name : String) (value : Json) : Json :=
  if name ∈ ["definitions", "$defs"] then cappedObject value else cappedValue name value

def cappedDocument : Json → Json
  | .obj fields => .obj (fields.map fun f => (f.1, cappedRootValue f.1 f.2))
  | x => x

theorem cappedFields_eq_map (fields : Keywords) :
    cappedFields fields = fields.map fun f => (f.1, cappedValue f.1 f.2) := by
  induction fields with
  | nil => rfl
  | cons f rest ih =>
    obtain ⟨name, value⟩ := f
    rw [cappedFields.eq_def]
    dsimp only
    rw [ih, List.map_cons]
    cases value <;> rfl

theorem lookup_map (change : String → Json → Json) (fields : Keywords) (name : String) :
    (fields.map fun f => (f.1, change f.1 f.2)).lookup name =
      (fields.lookup name).map (change name) := by
  induction fields with
  | nil => rfl
  | cons f rest ih =>
    rw [List.map_cons, Fields.lookup_cons, Fields.lookup_cons, ih]
    split
    · next same => rw [same]; rfl
    · rfl

/-! ## Results compared -/

def IsMalformed (e : Fault) : Prop := ∃ what place, e = .malformed what place

/-- What comes of reading a value, and of reading it with capped bounds. The second ends well or at
a malformed value. So does the first, in the same way, unless it met an integer beyond the range of
doubles; there the second met a bound that is not finite. -/
structure Caps {α : Type} (oversized : Pointer → Prop) (r r' : Except Fault α) : Prop where
  malformed : ∀ e, r' = .error e → IsMalformed e
  same : r = r' ∨ r = .error .boundTooLarge ∧ ∃ (place : Pointer) (name : String),
    r' = .error (.malformed (.notFinite name) (place.field name)) ∧ oversized (place.field name)

namespace Caps

variable {α β : Type} {oversized : Pointer → Prop}

theorem of_malformed {r : Except Fault α} (h : ∀ e, r = .error e → IsMalformed e) :
    Caps oversized r r :=
  ⟨h, .inl rfl⟩

theorem ok (x : α) : Caps oversized (.ok x) (.ok x) :=
  of_malformed fun _ h => by cases h

theorem fault (what : Malformation) (place : Pointer) :
    Caps oversized (.error (.malformed what place) : Except Fault α)
      (.error (.malformed what place)) :=
  of_malformed fun _ h => ⟨what, place, (Except.error.inj h).symm⟩

theorem bind {r r' : Except Fault α} {f f' : α → Except Fault β} (first : Caps oversized r r')
    (next : ∀ x, Caps oversized (f x) (f' x)) : Caps oversized (r >>= f) (r' >>= f') := by
  obtain ⟨malformed, rfl | ⟨rfl, place, name, rfl, large⟩⟩ := first
  · cases r with
    | error e =>
      refine of_malformed fun e' h => ?_
      obtain rfl : e = e' := Except.error.inj h
      exact malformed e rfl
    | ok x => exact next x
  · refine ⟨fun e h => ?_, .inr ⟨rfl, place, name, rfl, large⟩⟩
    exact ⟨_, _, (Except.error.inj h).symm⟩

theorem map {r r' : Except Fault α} (h : Caps oversized r r') (f : α → β) :
    Caps oversized (f <$> r) (f <$> r') := by
  have functor (x : Except Fault α) : f <$> x = x >>= fun a => .ok (f a) := by
    cases x <;> rfl
  rw [functor, functor]
  exact h.bind fun x => ok (f x)

/-- What is read ends well or at a malformed value just if capping changes nothing. -/
theorem ends_iff {r r' : Except Fault α} (h : Caps oversized r r') :
    (∃ x, r = .ok x) ∨ (∃ e, r = .error e ∧ IsMalformed e) ↔ r = r' := by
  obtain ⟨malformed, rfl | ⟨rfl, place, name, rfl, -⟩⟩ := h
  · refine ⟨fun _ => rfl, fun _ => ?_⟩
    cases r with
    | ok x => exact .inl ⟨x, rfl⟩
    | error e => exact .inr ⟨e, rfl, malformed e rfl⟩
  · constructor
    · rintro (⟨x, read⟩ | ⟨e, failed, what, place, rfl⟩)
      · cases read
      · cases failed
    · intro same
      cases same

/-- A keyword whose value has changed. -/
theorem keyword {fields more : Keywords} {name : String} {read : Json → Except Fault α}
    (change : Json → Json) (changed : more.lookup name = (fields.lookup name).map change)
    (h : ∀ x, fields.lookup name = some x → Caps oversized (read x) (read (change x))) :
    Caps oversized (keyword fields name read) (keyword more name read) := by
  rw [keyword_eq, keyword_eq, changed]
  rcases found : fields.lookup name with _ | x
  · exact ok none
  · exact (h x found).map some

end Caps

/-! ## Rules without further schemas -/

section

variable {e : Fault} {here : Pointer} {name : String} {x : Json}

theorem readKind_malformed (h : readKind here x = .error e) : IsMalformed e := by
  unfold readKind at h
  split at h
  · split at h
    · cases h
    · exact ⟨_, _, (Except.error.inj h).symm⟩
  · exact ⟨_, _, (Except.error.inj h).symm⟩

theorem readKinds_malformed {xs : List Json} (h : readKinds here xs = .error e) :
    IsMalformed e := by
  induction xs with
  | nil => cases h
  | cons x xs ih =>
    rw [readKinds] at h
    rcases first : readKind here x with e' | k
    · rw [first] at h
      obtain rfl : e' = e := Except.error.inj h
      exact readKind_malformed first
    · rw [first] at h
      rcases rest : readKinds here xs with e' | ks
      · rw [rest] at h ih
        obtain rfl : e' = e := Except.error.inj h
        exact ih rfl
      · rw [rest] at h
        cases h

theorem readType_malformed (h : readType here x = .error e) : IsMalformed e := by
  unfold readType at h
  split at h <;> exact readKinds_malformed h

theorem readLength_malformed (h : readLength name here x = .error e) : IsMalformed e := by
  unfold readLength at h
  dsimp only at h
  split at h
  · cases h
  · exact ⟨_, _, (Except.error.inj h).symm⟩

theorem readString_malformed (h : readString name here x = .error e) : IsMalformed e := by
  unfold readString at h
  split at h
  · cases h
  · exact ⟨_, _, (Except.error.inj h).symm⟩

theorem readRequired_malformed (h : readRequired here x = .error e) : IsMalformed e := by
  unfold readRequired at h
  split at h
  · split at h
    · cases h
    · exact ⟨_, _, (Except.error.inj h).symm⟩
  · exact ⟨_, _, (Except.error.inj h).symm⟩

end

/-- A bound that is too large fails where the capped one is not finite. -/
theorem caps_readBound {root x : Json} {here : Pointer} {name : String}
    (h : root.Stands (here.field name) x) :
    Caps root.OversizedAt (readBound name (here.field name) x)
      (readBound name (here.field name) (cappedBound x)) := by
  cases x with
  | num n =>
    cases n with
    | int n =>
      by_cases finite : (Double.ofInt n).isFinite = true
      · have kept : cappedBound (.num (.int n)) = .num (.int n) := if_pos finite
        have read : readBound name (here.field name) (.num (.int n)) = .ok (.ofInt n) :=
          if_pos finite
        rw [kept, read]
        exact .ok _
      · have large := Bool.eq_false_of_not_eq_true finite
        have raised : cappedBound (.num (.int n)) = .num (.double (.ofInt n)) := if_neg finite
        have failed : readBound name (here.field name) (.num (.int n)) = .error .boundTooLarge :=
          if_neg finite
        have found : readBound name (here.field name) (.num (.double (.ofInt n))) =
            .error (.malformed (.notFinite name) (here.field name)) := if_neg finite
        rw [raised, failed, found]
        exact ⟨fun e he => ⟨_, _, (Except.error.inj he).symm⟩,
          .inr ⟨rfl, here, name, rfl, n, h, large⟩⟩
    | double x =>
      refine .of_malformed fun e he => ?_
      unfold readBound at he
      dsimp only at he
      split at he
      · cases he
      · exact ⟨_, _, (Except.error.inj he).symm⟩
  | _ => exact .fault _ _

/-! ## Rules of one object -/

theorem cappedValue_bound {name : String} (h : name ∈ boundNames) (x : Json) :
    cappedValue name x = cappedBound x :=
  if_pos h

/-- The keywords whose values may change. -/
def cappedNames : List String :=
  boundNames ++ ["properties", "items", "anyOf", "additionalProperties", "not"]

theorem cappedValue_other {name : String} (h : name ∉ cappedNames) (x : Json) :
    cappedValue name x = x := by
  simp_all [cappedValue, cappedNames, boundNames]

section

variable {root : Json} {here : Pointer} {fields more : Keywords}

/-- The keywords of a schema have been capped; definitions may have been as well. -/
def Changed (fields more : Keywords) : Prop :=
  ∀ name, name ∉ ["definitions", "$defs"] →
    more.lookup name = (fields.lookup name).map (cappedValue name)

/-- A keyword that does not change is read the same. -/
theorem caps_kept {α : Type} {name : String} {read : Json → Except Fault α}
    (changed : Changed fields more) (other : name ∉ ["definitions", "$defs"] ++ cappedNames)
    (malformed : ∀ x e, read x = .error e → IsMalformed e) :
    Caps root.OversizedAt (keyword fields name read) (keyword more name read) := by
  refine .keyword (fun x => x) ?_ fun x _ => .of_malformed (malformed x)
  have others := fun within => other (List.mem_append_right _ within)
  rw [changed name fun within => other (List.mem_append_left _ within),
    funext (cappedValue_other others)]

theorem caps_readNumberRules (h : root.Stands here (.obj fields))
    (changed : Changed fields more) :
    Caps root.OversizedAt (readNumberRules here fields) (readNumberRules here more) := by
  have bound (name : String) (listed : name ∈ boundNames) :
      Caps root.OversizedAt (keyword fields name (readBound name (here.field name)))
        (keyword more name (readBound name (here.field name))) := by
    have own : ∀ name ∈ boundNames, name ∉ ["definitions", "$defs"] := by decide
    refine .keyword _ (changed name (own name listed)) fun x found => ?_
    rw [cappedValue_bound listed]
    exact caps_readBound (h.in_field (Fields.mem_of_lookup found))
  unfold readNumberRules
  exact (bound "minimum" (by decide)).bind fun _ => (bound "maximum" (by decide)).bind fun _ =>
    (bound "exclusiveMinimum" (by decide)).bind fun _ =>
      (bound "exclusiveMaximum" (by decide)).bind fun _ => .ok _

theorem caps_readStringRules
    (changed : Changed fields more) :
    Caps root.OversizedAt (readStringRules here fields) (readStringRules here more) := by
  have string (name : String) (other : name ∉ ["definitions", "$defs"] ++ cappedNames) :
      Caps root.OversizedAt (keyword fields name (readString name (here.field name)))
        (keyword more name (readString name (here.field name))) :=
    caps_kept changed other fun _ _ => readString_malformed
  have length (name : String) (other : name ∉ ["definitions", "$defs"] ++ cappedNames) :
      Caps root.OversizedAt (keyword fields name (readLength name (here.field name)))
        (keyword more name (readLength name (here.field name))) :=
    caps_kept changed other fun _ _ => readLength_malformed
  unfold readStringRules
  exact (string "format" (by decide)).bind fun _ => (string "pattern" (by decide)).bind fun _ =>
    (length "minLength" (by decide)).bind fun _ =>
      (length "maxLength" (by decide)).bind fun _ => .ok _

/-- An object whose schemas come out the same but for bounds that are too large does so itself. -/
theorem caps_assemble (h : root.Stands here (.obj fields))
    (changed : Changed fields more)
    {parts parts' : Parts} (properties : Caps root.OversizedAt parts.properties parts'.properties)
    (additional : Caps root.OversizedAt parts.additional parts'.additional)
    (items : Caps root.OversizedAt parts.items parts'.items)
    (anyOf : Caps root.OversizedAt parts.anyOf parts'.anyOf)
    (negated : Caps root.OversizedAt parts.negated parts'.negated) :
    Caps root.OversizedAt (assemble here fields parts) (assemble here more parts') := by
  have const : more.lookup "const" = fields.lookup "const" := by
    rw [changed _ (by decide), funext (cappedValue_other (by decide)), Option.map_id']
  unfold assemble
  rw [const]
  refine (caps_kept changed (by decide) fun _ _ => readType_malformed).bind fun _ => ?_
  refine (caps_readNumberRules h changed).bind fun _ => ?_
  refine (caps_readStringRules changed).bind fun _ => properties.bind fun _ => ?_
  refine (caps_kept changed (by decide) fun _ _ => readRequired_malformed).bind fun _ => ?_
  refine additional.bind fun _ => items.bind fun _ => anyOf.bind fun _ => negated.bind fun _ => ?_
  refine (caps_kept changed (by decide) fun _ _ => readString_malformed).bind fun _ => ?_
  exact (caps_kept changed (by decide) fun _ _ => readString_malformed).bind fun _ => .ok _

end

/-! ## Schemas -/

section

variable {root : Json} {here : Pointer}

/-- Wherever a value stands in a document, it is read the same but for bounds that are too large. -/
def ReadsCapped (root x : Json) : Prop :=
  ∀ here, root.Stands here x → Caps root.OversizedAt (read here x) (read here (capped x))

theorem caps_readTable {table : List (String × Json)}
    (known : ∀ f ∈ table, root.Stands (here.field f.1) f.2 ∧ ReadsCapped root f.2) :
    Caps root.OversizedAt (readTable here table) (readTable here (cappedTable table)) := by
  induction table with
  | nil => exact .ok []
  | cons f rest ih =>
    obtain ⟨name, x⟩ := f
    obtain ⟨stands, reads⟩ := known _ List.mem_cons_self
    rw [cappedTable, readTable, readTable]
    exact (reads _ stands).bind fun _ =>
      (ih fun g hg => known g (List.mem_cons_of_mem _ hg)).bind fun _ => .ok _

theorem caps_readList {position : Nat} {xs : List Json}
    (known : ∀ i x, xs[i]? = some x →
      root.Stands (here.item (position + i)) x ∧ ReadsCapped root x) :
    Caps root.OversizedAt (readList here position xs) (readList here position (cappedList xs)) := by
  induction xs generalizing position with
  | nil => exact .ok []
  | cons x xs ih =>
    obtain ⟨stands, reads⟩ := known 0 x rfl
    rw [cappedList, readList, readList]
    refine (reads _ stands).bind fun _ => (ih fun i y found => ?_).bind fun _ => .ok _
    rw [Nat.add_right_comm, Nat.add_assoc]
    exact known (i + 1) y found

theorem caps_object {table : List (String × Json)} (stands : root.Stands here (.obj table))
    (known : (Json.obj table).Throughout (ReadsCapped root)) :
    Caps root.OversizedAt (readTable here table) (readTable here (cappedTable table)) :=
  caps_readTable fun _ hf => ⟨stands.in_field hf, (known.field hf).here⟩

theorem caps_list {xs : List Json} (stands : root.Stands here (.arr xs))
    (known : (Json.arr xs).Throughout (ReadsCapped root)) :
    Caps root.OversizedAt (readList here 0 xs) (readList here 0 (cappedList xs)) := by
  refine caps_readList fun i x found => ⟨?_, (known.item (List.mem_of_getElem? found)).here⟩
  rw [Nat.zero_add]
  exact stands.in_item found

variable {fields more : Keywords}

theorem caps_propertiesOf (stands : root.Stands here (.obj fields))
    (known : ∀ f ∈ fields, f.2.Throughout (ReadsCapped root)) (changed : Changed fields more) :
    Caps root.OversizedAt (propertiesOf here (fields.lookup "properties"))
      (propertiesOf here (more.lookup "properties")) := by
  rw [changed _ (by decide)]
  rcases found : fields.lookup "properties" with _ | x
  · exact .ok []
  · have hx := Fields.mem_of_lookup found
    cases x with
    | obj table => exact caps_object (stands.in_field hx) (known _ hx)
    | _ => exact .fault _ _

theorem caps_schemaOf (stands : root.Stands here (.obj fields))
    (known : ∀ f ∈ fields, f.2.Throughout (ReadsCapped root)) (changed : Changed fields more)
    {name : String} (holds : name ∈ ["additionalProperties", "not"]) :
    Caps root.OversizedAt (schemaOf here name (fields.lookup name))
      (schemaOf here name (more.lookup name)) := by
  have capped_value : cappedValue name = capped := by
    funext x
    rcases List.mem_cons.mp holds with rfl | holds
    · rfl
    · obtain rfl := List.mem_singleton.mp holds
      rfl
  have own : ∀ name ∈ ["additionalProperties", "not"], name ∉ ["definitions", "$defs"] := by decide
  rw [changed _ (own name holds), capped_value]
  rcases found : fields.lookup name with _ | x
  · exact .ok none
  · have hx := Fields.mem_of_lookup found
    exact ((known _ hx).here _ (stands.in_field hx)).map some

theorem caps_itemsOf (stands : root.Stands here (.obj fields))
    (known : ∀ f ∈ fields, f.2.Throughout (ReadsCapped root)) (changed : Changed fields more) :
    Caps root.OversizedAt (itemsOf here (fields.lookup "items"))
      (itemsOf here (more.lookup "items")) := by
  rw [changed _ (by decide)]
  rcases found : fields.lookup "items" with _ | x
  · exact .ok none
  · have hx := Fields.mem_of_lookup found
    have there := stands.in_field hx
    cases x with
    | arr xs => exact (caps_list there (known _ hx)).map _
    | _ => exact ((known _ hx).here _ there).map _

theorem caps_anyOfOf (stands : root.Stands here (.obj fields))
    (known : ∀ f ∈ fields, f.2.Throughout (ReadsCapped root)) (changed : Changed fields more) :
    Caps root.OversizedAt (anyOfOf here (fields.lookup "anyOf"))
      (anyOfOf here (more.lookup "anyOf")) := by
  rw [changed _ (by decide)]
  rcases found : fields.lookup "anyOf" with _ | x
  · exact .ok none
  · have hx := Fields.mem_of_lookup found
    cases x with
    | arr xs => exact (caps_list (stands.in_field hx) (known _ hx)).map some
    | _ => exact .fault _ _

/-- An object is read the same but for bounds that are too large, if all that stands in it is. -/
theorem caps_read_obj (stands : root.Stands here (.obj fields))
    (known : ∀ f ∈ fields, f.2.Throughout (ReadsCapped root)) (changed : Changed fields more) :
    Caps root.OversizedAt (read here (.obj fields)) (read here (.obj more)) := by
  rw [read, read, readParts_eq, readParts_eq]
  exact caps_assemble stands changed (caps_propertiesOf stands known changed)
    (caps_schemaOf stands known changed (by decide)) (caps_itemsOf stands known changed)
    (caps_anyOfOf stands known changed) (caps_schemaOf stands known changed (by decide))

theorem changed_cappedFields (fields : Keywords) : Changed fields (cappedFields fields) := by
  intro name _
  rw [cappedFields_eq_map]
  exact lookup_map cappedValue fields name

/-- Every value of a document is read the same but for bounds that are too large. -/
theorem caps_read (root x : Json) : x.Throughout (ReadsCapped root) := by
  induction x using Json.parts_induction with
  | arr xs ih => exact Json.throughout_arr.mpr ⟨fun _ _ => .fault _ _, ih⟩
  | obj fields ih =>
    have known (f : String × Json) (hf : f ∈ fields) := ih f.1 f.2 hf
    refine Json.throughout_obj.mpr ⟨fun here stands => ?_, known⟩
    exact caps_read_obj stands known (changed_cappedFields fields)
  | bool b =>
    refine Json.throughout_bool.mpr fun _ _ => ?_
    cases b <;> exact .ok _
  | null => exact Json.throughout_null.mpr fun _ _ => .fault _ _
  | num n => exact Json.throughout_num.mpr fun _ _ => .fault _ _
  | str s => exact Json.throughout_str.mpr fun _ _ => .fault _ _

end

/-! ## Documents -/

theorem caps_readDefinitions (fields : Keywords) {name : String}
    (h : name ∈ ["definitions", "$defs"]) {more : Keywords}
    (changed : more.lookup name = (fields.lookup name).map (cappedRootValue name)) :
    Caps (Json.obj fields).OversizedAt (readDefinitions fields name)
      (readDefinitions more name) := by
  have value : cappedRootValue name = cappedObject := funext fun _ => if_pos h
  unfold readDefinitions
  rw [changed, value]
  rcases found : fields.lookup name with _ | x
  · exact .ok []
  · have there : (Json.obj fields).Stands (Pointer.root.field name) x :=
      (Json.Stands.here _).in_field (p := []) (Fields.mem_of_lookup found)
    cases x with
    | null => exact .ok []
    | obj table => exact caps_object there (caps_read _ _)
    | _ => exact .fault _ _

/-- A document with capped bounds is a schema or has a malformed value. The document itself comes
out the same, unless reading it meets an integer beyond the range of doubles; there the document
with capped bounds has a bound that is not finite. -/
theorem caps_ofDocument (document : Json) :
    Caps document.OversizedAt (ofDocument document) (ofDocument (cappedDocument document)) := by
  cases document with
  | obj fields =>
    have lookup (name : String) := lookup_map cappedRootValue fields name
    have changed : Changed fields (fields.map fun f => (f.1, cappedRootValue f.1 f.2)) := by
      intro name own
      rw [lookup, show cappedRootValue name = cappedValue name from funext fun _ => if_neg own]
    have root : Caps (Json.obj fields).OversizedAt (read Pointer.root (.obj fields))
        (read Pointer.root (cappedDocument (.obj fields))) :=
      caps_read_obj (.here _) (fun f _ => caps_read _ f.2) changed
    unfold ofDocument
    refine root.bind fun _ => ?_
    refine (caps_readDefinitions fields (by decide) (lookup "$defs")).bind fun _ => ?_
    exact (caps_readDefinitions fields (by decide) (lookup "definitions")).bind fun _ => .ok _
  | bool b => cases b <;> exact .ok _
  | _ => exact .fault _ _

/-- Reading a document fails at a malformed value or for a bound that is too large. -/
theorem ofDocument_fault {document : Json} {e : Fault} (h : ofDocument document = .error e) :
    IsMalformed e ∨ e = .boundTooLarge := by
  obtain ⟨malformed, same | ⟨large, -⟩⟩ := caps_ofDocument document
  · exact .inl (malformed e (same ▸ h))
  · exact .inr (Except.error.inj (h.symm.trans large))

end Schema

end SchemaDrift
