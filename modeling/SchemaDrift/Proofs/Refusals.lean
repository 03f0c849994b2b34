import SchemaDrift.CommandLine
import SchemaDrift.Proofs.Reflexivity
import SchemaDrift.Proofs.Schema.Faults

/-!
# Documents that are no schemas

The program reads both documents before it compares them. A malformed document has one line as its
answer; a bound beyond the range of doubles is not taken for malformed, and the program breaks off.

* `CommandLine.Refused` says for which fault two documents are not compared.
* `CommandLine.run_loaded` is what the program does once it has loaded two documents.
* `CommandLine.refusals_exact` is the main statement.
-/

namespace SchemaDrift.CommandLine

/-- Two documents are not compared: the fault is that of the first of them that is no schema. -/
def Refused (old new : Json) (e : Fault) : Prop :=
  Schema.ofDocument old = .error e ∨
    (∃ s, Schema.ofDocument old = .ok s) ∧ Schema.ofDocument new = .error e

theorem ofDocuments_refused (limit : DepthLimit) (capacity : Int) {old new : Json} {e : Fault}
    (h : Refused old new e) :
    Comparison.ofDocuments limit capacity old new = Comparison.failed e := by
  unfold Comparison.ofDocuments
  rcases h with first | ⟨⟨s, first⟩, second⟩
  · rw [first]
  · rw [first, second]

variable {args : List String} {read : String → Source} {arguments : Arguments} {old new : Json}

/-- Once both documents are loaded, the program finishes their comparison. -/
theorem run_loaded (parsed : Arguments.parse args = .ok arguments)
    (loadedOld : load read arguments.old = .ok old)
    (loadedNew : load read arguments.new = .ok new) :
    run args read = finish arguments.verbose (.standard old new) := by
  unfold run compareFiles
  rw [parsed]
  dsimp only
  rw [loadedOld, loadedNew]

theorem finish_failed (verbose : Bool) (e : Fault) :
    finish verbose (Comparison.failed e) =
      if isReported e then .ok (failure "" e.message) else .error (.fault e) := by
  cases verbose <;> rfl

/-- The program finishes every comparison of two schemas by itself. -/
theorem finish_compared (verbose : Bool) {s t : Schema} (hs : Schema.ofDocument old = .ok s)
    (ht : Schema.ofDocument new = .ok t) :
    ∃ output, finish verbose (.standard old new) = .ok output := by
  obtain ⟨n, room, compared⟩ :=
    Comparison.ofDocuments_eq .standard (show (1 : Int) ≤ standardCapacity by decide) hs ht
  obtain ⟨-, -, -, faults⟩ := Comparison.ofRoots_between s t .standard (Memo.sound_empty room)
  rw [← compared] at faults
  unfold finish
  rcases ended : (Comparison.standard old new).changes with e | changes
  · have failed : (Comparison.standard old new).fault = some e := by
      unfold Comparison.changes at ended
      split at ended
      · cases ended
      · next found => rw [found, Except.error.inj ended]
    obtain ⟨path, rfl⟩ := faults e failed
    exact ⟨_, rfl⟩
  · exact ⟨_, rfl⟩

/-- A document is read to a schema or refused for a malformed value just if it is read as with
infinite bounds in place of the integers beyond the range of doubles. Otherwise it meets such a
bound, which would be malformed if it were infinite. The program answers a malformed document with
one line and the exit code one, breaks off for a bound that is too large, and has an output of its
own if both documents are schemas. -/
theorem refusals_exact (document : Json) (parsed : Arguments.parse args = .ok arguments)
    (loadedOld : load read arguments.old = .ok old)
    (loadedNew : load read arguments.new = .ok new) :
    ((∃ s, Schema.ofDocument document = .ok s) ∨
        (∃ e, Schema.ofDocument document = .error e ∧ Schema.IsMalformed e) ↔
      Schema.ofDocument document = Schema.ofDocument (Schema.cappedDocument document)) ∧
    Schema.Caps document.OversizedAt (Schema.ofDocument document)
      (Schema.ofDocument (Schema.cappedDocument document)) ∧
    (∀ e, Refused old new e →
      Schema.IsMalformed e ∧ run args read = .ok ⟨1, "", s!"Error: {e.message}\n"⟩ ∨
        e = .boundTooLarge ∧ run args read = .error (.fault .boundTooLarge)) ∧
    ∀ s t, Schema.ofDocument old = .ok s → Schema.ofDocument new = .ok t →
      ∃ output, run args read = .ok output := by
  have capped := Schema.caps_ofDocument document
  rw [run_loaded parsed loadedOld loadedNew]
  refine ⟨capped.ends_iff, capped, fun e refused => ?_, fun s t hs ht => finish_compared _ hs ht⟩
  have fault : Schema.IsMalformed e ∨ e = .boundTooLarge := by
    rcases refused with first | ⟨-, second⟩
    · exact Schema.ofDocument_fault first
    · exact Schema.ofDocument_fault second
  rw [Comparison.standard, ofDocuments_refused _ _ refused, finish_failed]
  rcases fault with ⟨what, place, rfl⟩ | rfl
  · exact .inl ⟨⟨what, place, rfl⟩, rfl⟩
  · exact .inr ⟨rfl, rfl⟩

theorem ofBytes_toUTF8 (text : String) : Json.ofBytes text.toUTF8 = Json.ofText text := by
  have valid : text.toUTF8.IsValidUTF8 := text.isValidUTF8
  unfold Json.ofBytes String.fromUTF8?
  rw [dif_pos valid]
  rfl

/-- A file that holds the text of a value is loaded as that value. -/
theorem load_of_text {path text : String} {x : Json}
    (valid : path.toList.contains '\x00' = false) (file : read path = .file text.toUTF8)
    (h : Json.ofText text = .ok x) : load read (some path) = .ok x := by
  have content : Json.ofBytes text.toUTF8 = .ok x := (ofBytes_toUTF8 text).trans h
  unfold load
  simp only [valid, Bool.false_eq_true, if_false, file, content]

/-- A schema without rules, and a document whose bound is no number. -/
def boundFiles (path : String) : Source :=
  if path = "old" then .file "\x7b\x7d".toUTF8 else .file "\x7b\"minimum\":true\x7d".toUTF8

/-- A document whose bound has 311 digits. -/
def largeBound : Json := .obj [("minimum", .num (.int (10 ^ 155 * 10 ^ 155)))]

theorem readNumberRules_oversized {here : Pointer} {n : Int}
    (h : (Double.ofInt n).isFinite = false) :
    Schema.readNumberRules here [("minimum", .num (.int n))] = .error .boundTooLarge := by
  have bound : Schema.readBound "minimum" (here.field "minimum") (.num (.int n)) =
      .error .boundTooLarge := if_neg (by simp [h])
  have found : Schema.keyword [("minimum", .num (.int n))] "minimum"
      (Schema.readBound "minimum" (here.field "minimum")) = .error .boundTooLarge := by
    unfold Schema.keyword
    rw [Fields.lookup_cons, if_pos rfl]
    dsimp only
    rw [bound]
  unfold Schema.readNumberRules
  dsimp only
  rw [found]
  rfl

theorem ofDocument_oversized {n : Int} (h : (Double.ofInt n).isFinite = false) :
    Schema.ofDocument (.obj [("minimum", .num (.int n))]) = .error .boundTooLarge := by
  have read : Schema.read Pointer.root (.obj [("minimum", .num (.int n))]) =
      .error .boundTooLarge := by
    rw [Schema.read, Schema.assemble, readNumberRules_oversized h]
    rfl
  unfold Schema.ofDocument
  rw [read]
  rfl

/-- The bound that is no number has its line, and the bound that is too large has none. -/
theorem refusals_exact_bounds :
    Schema.ofDocument largeBound = .error .boundTooLarge ∧
    Schema.ofDocument largeBound ≠ Schema.ofDocument (Schema.cappedDocument largeBound) ∧
    Schema.Caps largeBound.OversizedAt (Schema.ofDocument largeBound)
      (Schema.ofDocument (Schema.cappedDocument largeBound)) ∧
    Arguments.parse ["old", "new"] = .ok ⟨some "old", some "new", false⟩ ∧
    load boundFiles (some "old") = .ok (.obj []) ∧
    load boundFiles (some "new") = .ok (.obj [("minimum", .bool true)]) ∧
    run ["old", "new"] boundFiles =
      .ok ⟨1, "", "Error: 'minimum' must be a number (at /minimum)\n"⟩ := by
  have parsed : Arguments.parse ["old", "new"] = .ok ⟨some "old", some "new", false⟩ := by
    decide +kernel
  have loadedOld : load boundFiles (some "old") = .ok (.obj []) :=
    load_of_text (by decide) (if_pos rfl) (by cbv)
  have loadedNew : load boundFiles (some "new") = .ok (.obj [("minimum", .bool true)]) :=
    load_of_text (by decide) (if_neg (by decide)) (by cbv)
  have refused : Refused (.obj []) (.obj [("minimum", .bool true)])
      (.malformed (.noNumber "minimum") ["minimum"]) := .inr ⟨⟨.everything, by cbv⟩, by cbv⟩
  have large : Schema.ofDocument largeBound = .error .boundTooLarge :=
    ofDocument_oversized (show (Double.ofInt (10 ^ 155 * 10 ^ 155)).isFinite = false by
      decide +kernel)
  have message : (Fault.malformed (.noNumber "minimum") ["minimum"]).message =
      "'minimum' must be a number (at /minimum)" := by decide +kernel
  obtain ⟨ends, capped, answers, -⟩ := refusals_exact largeBound parsed loadedOld loadedNew
  refine ⟨large, fun same => ?_, capped, parsed, loadedOld, loadedNew, ?_⟩
  · rcases ends.mpr same with ⟨s, read⟩ | ⟨e, failed, what, place, rfl⟩
    · cases large.symm.trans read
    · cases large.symm.trans failed
  · rcases answers _ refused with ⟨-, answered⟩ | ⟨other, -⟩
    · rw [answered, message]
      rfl
    · cases other

end SchemaDrift.CommandLine
