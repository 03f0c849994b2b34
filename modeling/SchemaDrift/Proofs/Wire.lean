import Mathlib.Data.List.Basic
import SchemaDrift.CommandLine
import SchemaDrift.Proofs.Json.Literals
import SchemaDrift.Proofs.Json.ReadBack

/-!
# The wire form loses nothing

A change is written as a flat object: its path, the name of its form, the fields of the form and the
verdict. `Change.ofWire?` reads such an object. It knows from the form what the fields hold, so it
is not misled by a constant that looks like a range or like the name of a kind.

* `Edit.ofValues?_cells`: an edit is what its form and its cells say.
* `Change.nodup_wireWithVerdict`: no name of a field hides another one.
* `Change.ofText_line`: the line of a change is read back as its wire form.
* `Change.split_lines`: what is written for some changes are as many lines.
* `Change.wire_lossless` is the round trip for changes, and for what the program writes.
-/

namespace SchemaDrift

/-! ## Reading changes -/

def Kind.ofWire? : Json → Option Kind
  | .str name => Kind.ofName? name
  | _ => none

def Range.ofWire? : Json → Option Range
  | .obj [(keyword, .num value)] => (Bound.ofKeyword? keyword).map fun bound => ⟨bound, value⟩
  | _ => none

def lengthOf? : Json → Option Int
  | .num (.int n) => some n
  | _ => none

def textOf? : Json → Option String
  | .str s => some s
  | _ => none

/-- The edit of a form whose fields hold the given values. -/
def Edit.ofValues? : Form → List Json → Option Edit
  | .typeAdd, [x] => (Kind.ofWire? x).map .typeAdd
  | .typeRemove, [x] => (Kind.ofWire? x).map .typeRemove
  | .constAdd, [x] => some (.constAdd x)
  | .constRemove, [x] => some (.constRemove x)
  | .propertyAdd, [.bool oldIsOpen, x] => (textOf? x).map (.propertyAdd oldIsOpen)
  | .propertyRemove, [.bool oldIsOpen, x] => (textOf? x).map (.propertyRemove oldIsOpen)
  | .rangeAdd, [x] => (Range.ofWire? x).map .rangeAdd
  | .rangeRemove, [x] => (Range.ofWire? x).map .rangeRemove
  | .rangeChange, [x, y] => do return .rangeChange (← Range.ofWire? x) (← Range.ofWire? y)
  | .tupleToArray, [x] => (lengthOf? x).map .tupleToArray
  | .arrayToTuple, [x] => (lengthOf? x).map .arrayToTuple
  | .tupleChange, [x] => (lengthOf? x).map .tupleChange
  | .requiredAdd, [x] => (textOf? x).map .requiredAdd
  | .requiredRemove, [x] => (textOf? x).map .requiredRemove
  | .formatAdd, [x] => (textOf? x).map .formatAdd
  | .formatRemove, [x] => (textOf? x).map .formatRemove
  | .formatChange, [x, y] => do return .formatChange (← textOf? x) (← textOf? y)
  | .patternAdd, [x] => (textOf? x).map .patternAdd
  | .patternRemove, [x] => (textOf? x).map .patternRemove
  | .patternChange, [x, y] => do return .patternChange (← textOf? x) (← textOf? y)
  | .minLengthAdd, [x] => (lengthOf? x).map .minLengthAdd
  | .minLengthRemove, [x] => (lengthOf? x).map .minLengthRemove
  | .minLengthChange, [x, y] => do return .minLengthChange (← lengthOf? x) (← lengthOf? y)
  | .maxLengthAdd, [x] => (lengthOf? x).map .maxLengthAdd
  | .maxLengthRemove, [x] => (lengthOf? x).map .maxLengthRemove
  | .maxLengthChange, [x, y] => do return .maxLengthChange (← lengthOf? x) (← lengthOf? y)
  | _, _ => none

/-- The change and the verdict that the fields of an object stand for. -/
def Change.ofWire? (fields : List (String × Json)) : Option (Change × Bool) := do
  let path ← fields.lookup "path" >>= textOf?
  let form ← fields.lookup "change" >>= textOf? >>= Form.ofName?
  let values ← form.fields.mapM fun name => fields.lookup name
  let edit ← Edit.ofValues? form values
  match fields.lookup "is_breaking" with
  | some (.bool verdict) => some (⟨path, edit⟩, verdict)
  | _ => none

theorem Range.ofWire?_cell (r : Range) : Range.ofWire? r.cell.wire = some r := by
  obtain ⟨bound, value⟩ := r
  show (Bound.ofKeyword? bound.keyword).map _ = _
  rw [Bound.ofKeyword?_keyword]
  rfl

theorem Kind.ofWire?_wire (k : Kind) : Kind.ofWire? k.wire = some k := Kind.ofName?_name k

/-- An edit is what its form and its cells say. -/
theorem Edit.ofValues?_cells (e : Edit) : ofValues? e.form (e.cells.map Cell.wire) = some e := by
  cases e with
  | typeAdd k => exact congrArg (Option.map _) k.ofWire?_wire
  | typeRemove k => exact congrArg (Option.map _) k.ofWire?_wire
  | rangeAdd r => exact congrArg (Option.map _) r.ofWire?_cell
  | rangeRemove r => exact congrArg (Option.map _) r.ofWire?_cell
  | rangeChange old new =>
    show (do return Edit.rangeChange (← Range.ofWire? _) (← Range.ofWire? _)) = _
    rw [old.ofWire?_cell, new.ofWire?_cell]
    rfl
  | _ => rfl

namespace Change

/-! ## The fields of the wire form -/

/-- No name of a field hides another one. -/
theorem nodup_names (f : Form) : ("path" :: "change" :: f.fields ++ ["is_breaking"]).Nodup := by
  cases f <;> decide

theorem keys_wireWithVerdict (c : Change) :
    Fields.keys c.wireWithVerdict =
      "path" :: "change" :: c.edit.form.fields ++ ["is_breaking"] := by
  have cells : (c.edit.cells.map Cell.wire).length = c.edit.form.fields.length := by
    rw [List.length_map, c.edit.length_cells]
  have payload : c.record.payload.map (·.1) = c.edit.form.fields :=
    List.map_fst_zip cells.ge
  simp [Fields.keys, wireWithVerdict, Record.wireWith, Record.wire, payload]

theorem nodup_wireWithVerdict (c : Change) : (Fields.keys c.wireWithVerdict).Nodup := by
  rw [keys_wireWithVerdict]
  exact nodup_names c.edit.form

/-- Values are found under their names. -/
theorem mapM_lookup {table : List (String × Json)} (distinct : (Fields.keys table).Nodup) :
    ∀ {names : List String} {values : List Json}, names.length = values.length →
      (∀ f ∈ names.zip values, f ∈ table) → (names.mapM fun name => table.lookup name) = some values
  | [], [], _, _ => rfl
  | name :: names, x :: values, same, within => by
    obtain ⟨first, others⟩ := List.forall_mem_cons.mp within
    have found : table.lookup name = some x := Fields.lookup_of_mem distinct first
    have more := mapM_lookup distinct (Nat.succ.inj same) others
    rw [List.mapM_cons, found, more]
    rfl

/-- A change and its verdict are read from its wire form. -/
theorem ofWire?_wire (c : Change) : ofWire? c.wireWithVerdict = some (c, c.isBreaking) := by
  have distinct := c.nodup_wireWithVerdict
  have path : c.wireWithVerdict.lookup "path" = some (.str c.path) :=
    Fields.lookup_of_mem distinct (by simp [wireWithVerdict, Record.wireWith, Record.wire, record])
  have form : c.wireWithVerdict.lookup "change" = some (.str c.edit.form.name) :=
    Fields.lookup_of_mem distinct (by simp [wireWithVerdict, Record.wireWith, Record.wire, record])
  have verdict : c.wireWithVerdict.lookup "is_breaking" = some (.bool c.isBreaking) :=
    Fields.lookup_of_mem distinct (by simp [wireWithVerdict, Record.wireWith])
  have values : (c.edit.form.fields.mapM fun name => c.wireWithVerdict.lookup name) =
      some (c.edit.cells.map Cell.wire) := by
    refine mapM_lookup distinct ?_ fun f hf => ?_
    · rw [List.length_map, c.edit.length_cells]
    · have inside : f ∈ c.record.payload := hf
      simp [wireWithVerdict, Record.wireWith, Record.wire, inside]
  simp only [ofWire?, path, form, verdict, textOf?, Option.bind_some, Form.ofName?_name, values,
    Edit.ofValues?_cells, bind]

/-! ## Lines -/

/-- What a change carries is lost in no text: no object in it repeats a key, and its numbers are
read back from their texts. -/
def Portable (c : Change) : Prop := ∀ cell ∈ c.edit.cells, cell.wire.Throughout Json.Written

theorem written_wire {c : Change} (h : c.Portable) :
    (Json.obj c.wireWithVerdict).Throughout Json.Written := by
  refine Json.throughout_obj.mpr ⟨c.nodup_wireWithVerdict, ?_⟩
  have str (s : String) : (Json.str s).Throughout Json.Written :=
    Json.throughout_str.mpr trivial
  have payload : ∀ f ∈ c.record.payload, f.2.Throughout Json.Written := by
    intro f hf
    obtain ⟨cell, inside, same⟩ := List.mem_map.mp (List.of_mem_zip hf).2
    exact same ▸ h cell inside
  simp only [wireWithVerdict, Record.wireWith, Record.wire, List.cons_append, List.forall_mem_cons,
    List.forall_mem_append]
  exact ⟨str _, str _, payload, Json.throughout_bool.mpr trivial, List.forall_mem_nil _⟩

/-- The line of a change is read back as its wire form. -/
theorem ofText_line {c : Change} (h : c.Portable) :
    Json.ofText c.line = .ok (.obj c.wireWithVerdict) := Json.ofText_toText (written_wire h)

/-- The text of a change stays on one line. -/
theorem no_newline (c : Change) : ∀ d ∈ c.line.toList, (d == '\n') = false := by
  intro d hd
  have inside : d ∈ Json.spell Json.wire (.obj c.wireWithVerdict) [] := by
    simpa [line, Record.line, Json.toText, Json.inSpelling, wireWithVerdict] using hd
  have nothing : ∀ e ∈ ([] : List Char), Json.Printable e := List.forall_mem_nil _
  have printable := Json.printable_spell _ nothing d inside
  rw [beq_eq_false_iff_ne]
  rintro rfl
  exact absurd printable (by decide)

/-- Lines with their ends are split at these ends. -/
theorem split_lines (cs : List Change) :
    (String.join (cs.map fun c => c.line ++ "\n")).toList.splitOn '\n' =
      cs.map (·.line.toList) ++ [[]] := by
  induction cs with
  | nil => rfl
  | cons c cs ih =>
    have text : (String.join ((c :: cs).map fun c => c.line ++ "\n")).toList =
        c.line.toList ++ '\n' :: (String.join (cs.map fun c => c.line ++ "\n")).toList := by
      simp [String.toList_join]
    rw [text, List.splitOn,
      List.splitOnP_append_cons_of_forall_mem c.no_newline '\n' (beq_self_eq_true _)]
    exact congrArg (c.line.toList :: ·) ih

/-- **The wire form loses nothing.** A change and its verdict are read from its wire form; and what
the program writes for a list of changes are as many lines, of which each is read as the wire form
of its change. -/
theorem wire_lossless :
    (∀ c : Change, ofWire? c.wireWithVerdict = some (c, c.isBreaking)) ∧
      ∀ (verbose : Bool) (comparison : Comparison) (changes : List Change),
        comparison.changes = .ok changes →
          ∃ output, CommandLine.finish verbose comparison = .ok output ∧
            output.stdout.toList.splitOn '\n' = changes.map (·.line.toList) ++ [[]] ∧
            ∀ c ∈ changes, c.Portable → Json.ofText c.line = .ok (.obj c.wireWithVerdict) := by
  refine ⟨ofWire?_wire, fun verbose comparison changes ended => ?_⟩
  unfold CommandLine.finish
  rw [ended]
  exact ⟨_, rfl, split_lines changes, fun c _ => ofText_line⟩

theorem wire_lossless_nested :
    let constant : Change := ⟨".a", .constAdd
      (.obj [("minimum", .arr [.num (.double (.ofDecimal true 25 (-2))), .str "\"\n😀"])])⟩
    let range : Change := ⟨"", .rangeChange ⟨.minimum, .int (-3)⟩
      ⟨.maximum, .double (.ofDecimal false 1 23)⟩⟩
    ∃ output, CommandLine.finish false ⟨[constant, range], [], none⟩ = .ok output ∧
      output.stdout.toList.splitOn '\n' =
        [constant.line.toList, range.line.toList, []] ∧
      Json.ofText constant.line = .ok (.obj constant.wireWithVerdict) ∧
      Json.ofText range.line = .ok (.obj range.wireWithVerdict) := by
  intro constant range
  have double (x : Double) : Json.ReadsBack (.double x) := (Json.readsBack_iff _).mpr nofun
  have whole : Json.ReadsBack (.int (-3)) := by
    refine (Json.readsBack_iff _).mpr fun k same => ?_
    cases same
    decide
  have first : constant.Portable := by
    simp [constant, Portable, Edit.cells, Cell.wire, Json.Written, Fields.keys, double]
  have second : range.Portable := by
    simp [range, Portable, Edit.cells, Range.cell, Cell.wire, Json.Written, Fields.keys, double,
      whole]
  obtain ⟨output, ended, lines, read⟩ :=
    wire_lossless.2 false ⟨[constant, range], [], none⟩ [constant, range] rfl
  exact ⟨output, ended, lines, read constant (by simp) first, read range (by simp) second⟩

end Change

end SchemaDrift
