import SchemaDrift.Json.Reader
import SchemaDrift.Proofs.Json.Equality

/-!
# Values that are read from texts

A text may repeat a key, but the object that is read from it does not: the later value takes the
place of the earlier one.

* `Json.Reads` says this of the three readers at one depth of nesting, and `Json.reads` of all
  depths.
* `Json.distinctKeys_of_text`: no object in a value that is read from a text repeats a key.
-/

namespace SchemaDrift.Json

/-- What reading a part of a text leaves behind, if it succeeds, has a property. -/
def Yields {α : Type} (P : α → Prop) (r : Except TextFault (α × List Char)) : Prop :=
  ∀ x rest, r = .ok (x, rest) → P x

/-- No object in a value repeats a key. -/
abbrev Unrepeated (x : Json) : Prop := x.Throughout DistinctKeys

/-- A table of fields without repeated keys, and so all values in it. -/
def UnrepeatedFields (fields : List (String × Json)) : Prop :=
  (Fields.keys fields).Nodup ∧ ∀ f ∈ fields, Unrepeated f.2

namespace Yields

variable {α : Type} {P : α → Prop}

theorem ok {x : α} (h : P x) (rest : List Char) : Yields P (.ok (x, rest)) := by
  intro _ _ same
  cases same
  exact h

theorem error (e : TextFault) : Yields P (.error e) := fun _ _ h => nomatch h

end Yields

theorem readNumber_yields (negative : Bool) (cs : List Char) :
    Yields Unrepeated (readNumber negative cs) := by
  have num (n : Number) : Unrepeated (.num n) := throughout_num.mpr trivial
  unfold readNumber
  split
  · exact .error _
  · dsimp only
    split
    · split
      · exact .error _
      · exact .ok (num _) _
    · exact .ok (num _) _
    · exact .ok (num _) _

theorem readScalar_yields (cs : List Char) : Yields Unrepeated (readScalar cs) := by
  have num (n : Number) : Unrepeated (.num n) := throughout_num.mpr trivial
  have bool (b : Bool) : Unrepeated (.bool b) := throughout_bool.mpr trivial
  unfold readScalar
  split
  · exact .ok (throughout_null.mpr trivial) _
  split
  · exact .ok (bool true) _
  split
  · exact .ok (bool false) _
  split
  · exact .ok (num _) _
  split
  · exact .ok (num _) _
  split
  · exact .ok (num _) _
  split
  · exact readNumber_yields true _
  · exact readNumber_yields false _

/-- The readers of values, items and fields leave no repeated key. -/
structure Reads (fuel : Nat) : Prop where
  value (cs : List Char) : Yields Unrepeated (readValue fuel cs)
  items (cs : List Char) : Yields (fun xs => ∀ x ∈ xs, Unrepeated x) (readItems fuel cs)
  fields {fields : List (String × Json)} (h : UnrepeatedFields fields) (cs : List Char) :
    Yields UnrepeatedFields (readFields fuel fields cs)

theorem UnrepeatedFields.put {fields : List (String × Json)} (h : UnrepeatedFields fields)
    (key : String) {x : Json} (hx : Unrepeated x) : UnrepeatedFields (Fields.put key x fields) := by
  refine ⟨Fields.nodup_put h.1 key x, fun f hf => ?_⟩
  rcases Fields.mem_put hf with rfl | earlier
  · exact hx
  · exact h.2 f earlier

theorem Reads.value_succ {fuel : Nat} (reads : Reads fuel) (cs : List Char) :
    Yields Unrepeated (readValue (fuel + 1) cs) := by
  have arr {xs : List Json} (h : ∀ x ∈ xs, Unrepeated x) : Unrepeated (.arr xs) :=
    throughout_arr.mpr ⟨trivial, h⟩
  have obj {fields : List (String × Json)} (h : UnrepeatedFields fields) : Unrepeated (.obj fields) :=
    throughout_obj.mpr h
  have noFields : UnrepeatedFields [] := ⟨List.nodup_nil, fun _ hf => nomatch hf⟩
  have noItems : ∀ x ∈ ([] : List Json), Unrepeated x := fun _ hx => nomatch hx
  cases cs with
  | nil => exact .error _
  | cons c cs =>
    rw [readValue]
    split
    · split
      · exact .ok (throughout_str.mpr trivial) _
      · exact .error _
    split
    · split
      · exact .ok (arr noItems) _
      · split
        · next read => exact .ok (arr (reads.items _ _ _ read)) _
        · exact .error _
    split
    · split
      · exact .ok (obj noFields) _
      · split
        · next read => exact .ok (obj (reads.fields noFields _ _ _ read)) _
        · exact .error _
    · exact readScalar_yields _

theorem Reads.items_succ {fuel : Nat} (reads : Reads fuel) (cs : List Char) :
    Yields (fun xs => ∀ x ∈ xs, Unrepeated x) (readItems (fuel + 1) cs) := by
  rw [readItems]
  split
  · exact .error _
  · next first =>
    have head := reads.value _ _ _ first
    split
    · exact .ok (List.forall_mem_singleton.mpr head) _
    · split
      · next read => exact .ok (List.forall_mem_cons.mpr ⟨head, reads.items _ _ _ read⟩) _
      · exact .error _
    · exact .error _

theorem Reads.fields_succ {fuel : Nat} (reads : Reads fuel) {fields : List (String × Json)}
    (h : UnrepeatedFields fields) (cs : List Char) :
    Yields UnrepeatedFields (readFields (fuel + 1) fields cs) := by
  unfold readFields
  split
  · split
    · exact .error _
    · split
      · split
        · exact .error _
        · next read =>
          have more (key : String) := h.put key (reads.value _ _ _ read)
          dsimp only
          split
          · exact .ok (more _) _
          · exact reads.fields (more _) _
          · exact .error _
      · exact .error _
  · exact .error _

theorem reads (fuel : Nat) : Reads fuel := by
  induction fuel with
  | zero =>
    refine ⟨fun cs => ?_, fun cs => ?_, fun _ cs => ?_⟩
    · rw [readValue]
      exact .error _
    · rw [readItems]
      exact .error _
    · rw [readFields]
      exact .error _
  | succ fuel ih => exact ⟨ih.value_succ, ih.items_succ, ih.fields_succ⟩

/-- No object in a value that is read from a text repeats a key. -/
theorem distinctKeys_of_text {text : String} {x : Json} (h : ofText text = .ok x) :
    x.Throughout DistinctKeys := by
  unfold ofText ofChars at h
  split at h
  · exact nomatch h
  · next y rest read =>
    split at h
    · obtain rfl : y = x := Except.ok.inj h
      exact (reads _).value _ _ _ read
    · exact nomatch h

end SchemaDrift.Json
